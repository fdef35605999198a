import ReadLogUpdate.Rlu.Conflict

/-!
# Write sets on their way to their publication

From `rlu_reader_unlock` to the sync that publishes it a write set is read by its owner alone. A
step of the library puts one write set on this way at most, or publishes all of one thread, and
changes none of them.
-/

namespace ReadLogUpdate

variable {ω : Type}

def Pc.isLeaving : Pc → Bool
  | .readerUnlock => true
  | _ => false

def Thread.staged (th : Thread ω) : Bool := th.pc.isLeaving && th.isWriteDetected

/-- The write set at `ctr` is committed or about to be, and not published. -/
def Thread.Unpublished (th : Thread ω) (ctr : Nat) : Prop :=
  th.flight = none ∧ th.wsWbCounter ≤ ctr ∧
    (ctr < th.wsTailCounter ∨ ctr = th.wsTailCounter ∧ th.staged = true)

theorem Pc.eq_of_isLeaving {pc : Pc} (h : pc.isLeaving = true) : pc = .readerUnlock := by
  unfold Pc.isLeaving at h
  split at h
  · rfl
  · cases h

theorem Thread.staged_iff {th : Thread ω} :
    th.staged = true ↔ th.pc = .readerUnlock ∧ th.isWriteDetected = true := by
  unfold Thread.staged
  rw [Bool.and_eq_true]
  constructor
  · rintro ⟨leaving, write⟩
    exact ⟨Pc.eq_of_isLeaving leaving, write⟩
  · rintro ⟨pc, write⟩
    rw [pc]
    exact ⟨rfl, write⟩

theorem Pc.leaving_of_nexts {pc : Pc} (h : PcKind.readerUnlock ∈ pc.nexts) : pc = .inSection := by
  cases pc with
  | inSection => rfl
  | syncCheckpoint k => cases k <;> simp [Pc.nexts, Caller.nexts] at h
  | readerLock q => cases q <;> simp [Pc.nexts] at h
  | tryLock q => cases q <;> simp [Pc.nexts] at h
  | abort q => cases q <;> simp [Pc.nexts] at h
  | release r q => cases r <;> simp [Pc.nexts] at h
  | sync k q => cases q <;> cases k <;> simp [Pc.nexts, Caller.nexts] at h
  | _ => simp [Pc.nexts, Caller.nexts] at h

section Record
variable {cfg : Config} {t : Nat} {s s' : State ω} {th th' : Thread ω}

/-- Outside a running write-back every entry of a pending write set is live. -/
theorem ThreadOk.wbPos_of_idle (h : ThreadOk cfg t th) (idle : th.flight = none) :
    th.pc.wbPos = fun wb => (wb, 0) := by
  have control := h.control
  have from_ (pc : Pc) (control : Control cfg t th pc) : pc.wbPos = fun wb => (wb, 0) := by
    induction pc with
    | failed line pc ih => exact ih control.2.2
    | fault pc ih => exact ih control.2
    | sync k q =>
      cases q with
      | entry ctr i =>
        obtain ⟨v, flight⟩ := control.1.2.2.2.2.2.2.1
        rw [idle] at flight
        cases flight
      | copy ctr i x | check ctr i | unlock ctr i =>
        obtain ⟨v, flight⟩ := control.1.2.2.2.2.2.2.1
        rw [idle] at flight
        cases flight
      | _ => rfl
    | _ => rfl
  exact from_ _ control

theorem ThreadOk.live_of_unpublished (h : ThreadOk cfg t th) {ctr i : Nat}
    (unpublished : th.Unpublished ctr) (num : i < (th.objWriteSet (wsIndex ctr)).numOfObjs) :
    th.Live ctr i := by
  obtain ⟨idle, ge, lt | ⟨rfl, staged⟩⟩ := unpublished
  · exact (Thread.live_iff (h.wbPos_of_idle idle) ctr i).mpr ⟨ge, .inl ⟨lt, num⟩⟩
  · refine (Thread.live_iff (h.wbPos_of_idle idle) _ i).mpr ⟨ge, .inr ⟨rfl, ?_, ?_⟩⟩
    · omega
    · rw [(Thread.staged_iff.mp staged).1]
      exact id

/-- A step that ends no section puts no write set on its way, and keeps those that are. -/
theorem LogStep.unpublished (h : ThreadOk cfg t th) (step : LogStep cfg t s s' th th')
    (notLeaving : th'.pc ≠ .readerUnlock) {ctr : Nat} (unpublished : th'.Unpublished ctr) :
    th.Unpublished ctr ∧ th'.objWriteSet (wsIndex ctr) = th.objWriteSet (wsIndex ctr) := by
  obtain ⟨idle, ge, lt | ⟨-, staged⟩⟩ := unpublished
  swap
  · exact absurd (Thread.staged_iff.mp staged).1 notLeaving
  have control := h.control
  have flying {p : Prop} {v : Nat} (flight : th'.flight = some v) : p := by
    rw [idle] at flight
    cases flight
  cases step with
  | quiet objects log flight =>
    obtain ⟨-, wb, tail, -⟩ := Thread.window_eq log.window
    rw [wb] at ge
    rw [tail] at lt
    exact ⟨⟨flight ▸ idle, ge, .inl lt⟩, by rw [log.log]⟩
  | write ws objects window log live actual owned strict none =>
    obtain ⟨-, wb, tail, -⟩ := Thread.window_eq window
    rw [wb] at ge
    rw [tail] at lt
    refine ⟨⟨none, ge, .inl lt⟩, ?_⟩
    rw [log, Function.update_of_ne (h.slot_ne strict (Nat.le_trans h.head_le_wb ge) lt)]
  | lock o pc free record | abortUnlock i pc record =>
    subst record
    exact ⟨⟨idle, ge, .inl lt⟩, rfl⟩
  | commit pc' pc detected next record =>
    subst record
    refine ⟨⟨idle, ge, ?_⟩, rfl⟩
    rcases Nat.lt_succ_iff_lt_or_eq.mp lt with lt | eq
    · exact .inl lt
    · exact .inr ⟨eq, Thread.staged_iff.mpr ⟨pc, detected⟩⟩
  | publish k pc record =>
    rw [pc] at control
    obtain ⟨-, -, v, shown⟩ := control
    rw [record] at idle
    rw [show th.writerVersion = none from idle] at shown
    cases shown
  | recycle k pc record =>
    rw [pc] at control
    obtain ⟨-, ⟨v, flight⟩, -⟩ := control
    exact flying (v := v + 1) (by rw [record]; exact flight)
  | writeWord k c i w pc bound record =>
    rw [pc] at control
    obtain ⟨v, flight⟩ := control.1.2.2.2.2.2.2.1
    exact flying (v := v + 1) (by rw [record]; exact flight)
  | unlock k c i pc record =>
    rw [pc] at control
    obtain ⟨v, flight⟩ := control.1.2.2.2.2.2.2.1
    exact flying (v := v + 1) (by rw [record]; exact flight)
  | finishWb k pc record =>
    rw [pc] at control
    obtain ⟨v, flight⟩ := control.1.2.2.2.2.2.2.1
    exact flying (v := v + 1) (by rw [record]; exact flight)
  | commitVersion k pc record =>
    rw [pc] at control
    have empty : th.wsWbCounter = th.wsTailCounter := control.2.1
    subst record
    have ge : th.wsWbCounter ≤ ctr := ge
    have lt : ctr < th.wsTailCounter := lt
    omega

theorem LogStep.unpublished_kept (h : ThreadOk cfg t th) (step : LogStep cfg t s s' th th')
    {ctr : Nat} (unpublished : th.Unpublished ctr)
    (goes : th.staged = true → th'.wsTailCounter = th.wsTailCounter + 1)
    (quiet : s'.gWriterVersion = s.gWriterVersion) : th'.Unpublished ctr := by
  obtain ⟨idle, ge, range⟩ := unpublished
  have control := h.control
  have next {tail' : Nat} (tail : tail' = th.wsTailCounter)
      (here : ctr < th.wsTailCounter ∨ ctr = th.wsTailCounter ∧ th.staged = true)
      (goes : th.staged = true → tail' = th.wsTailCounter + 1) : ctr < tail' := by
    rcases here with lt | ⟨rfl, staged⟩
    · omega
    · have := goes staged
      omega
  have flying {p : Prop} {v : Nat} (flight : th.flight = some v) : p := by
    rw [idle] at flight
    cases flight
  cases step with
  | quiet objects log flight =>
    obtain ⟨-, wb, tail, -⟩ := Thread.window_eq log.window
    exact ⟨flight.trans idle, by rw [wb]; exact ge, .inl (next tail range goes)⟩
  | write ws objects window log live actual owned strict none none' =>
    obtain ⟨-, wb, tail, -⟩ := Thread.window_eq window
    exact ⟨none', by rw [wb]; exact ge, .inl (next tail range goes)⟩
  | lock o pc free record | abortUnlock i pc record =>
    subst record
    exact ⟨idle, ge, .inl (next rfl range goes)⟩
  | commit pc' pc detected next record =>
    subst record
    refine ⟨idle, ge, .inl ?_⟩
    show ctr < th.wsTailCounter + 1
    omega
  | publish k pc record state =>
    rw [state] at quiet
    exact absurd quiet (Nat.succ_ne_self _)
  | recycle k pc record =>
    rw [pc] at control
    obtain ⟨-, ⟨v, flight⟩, -⟩ := control
    exact flying flight
  | writeWord k c i w pc bound record =>
    rw [pc] at control
    obtain ⟨v, flight⟩ := control.1.2.2.2.2.2.2.1
    exact flying flight
  | unlock k c i pc record =>
    rw [pc] at control
    obtain ⟨v, flight⟩ := control.1.2.2.2.2.2.2.1
    exact flying flight
  | finishWb k pc record =>
    rw [pc] at control
    obtain ⟨v, flight⟩ := control.1.2.2.2.2.2.2.1
    exact flying flight
  | commitVersion k pc record =>
    rw [pc] at control
    obtain ⟨v, flight⟩ := control.2.2.1
    exact flying flight

/-- A step leaves the published write sets alone, or publishes all that are on the way. -/
theorem LogStep.publishes (h : ThreadOk cfg t th) (acquires : th.Acquires s.gWriterVersion)
    (step : LogStep cfg t s s' th th') :
    s'.published = s.published ∧ s'.gWriterVersion = s.gWriterVersion ∨
    th.flight = none ∧ th'.flight ≠ none ∧
      s'.published = ⟨s.gWriterVersion + 1, th.pendingObjs⟩ :: s.published ∧
      s'.gWriterVersion = s.gWriterVersion + 1 := by
  rcases step.published acquires with same | ⟨published, writer⟩
  · exact .inl same
  · cases step with
    | publish k pc record =>
      have control := h.control
      rw [pc] at control
      obtain ⟨-, idle, v, shown⟩ := control
      refine .inr ⟨idle, ?_, published, writer⟩
      rw [record]
      intro gone
      rw [show th.writerVersion = none from gone] at shown
      cases shown
    | quiet objects | write ws objects =>
      rw [objects.writerVersion] at writer
      omega
    | lock o pc free record state | commit pc' pc detected next record state
    | abortUnlock i pc record state | recycle k pc record state | unlock k c i pc record state
    | writeWord k c i w pc bound record state | finishWb k pc record state
    | commitVersion k pc record state =>
      rw [state] at writer
      exact absurd writer.symm (Nat.succ_ne_self _)

end Record

section Step
variable {cfg : Config} {s : State ω} {a : Act ω} {t : Nat} {e : Effect ω}

theorem ActEffect.leaves (act : ActEffect cfg s a t e) (leaving : e.1.pc = .readerUnlock) :
    a = .call t .readerUnlock ∧ (s.thread t).pc = .inSection ∧
      e = ({ s.thread t with runCounter := (s.thread t).runCounter + 1, pc := .readerUnlock }, .none) := by
  have flow := actEffect_flow act
  rw [leaving] at flow
  have pc := Pc.leaving_of_nexts flow
  rcases act with ⟨op, rfl, called⟩ | ⟨-, stepped⟩
  · rw [pc] at called
    have called : callInSection cfg s t (s.thread t) op = some e := called
    have unregister {pc' : Pc} (ne : pc' ≠ .readerUnlock)
        (eq : rluUnregisterThread (s.thread t) pc' = e) : False := by
      unfold rluUnregisterThread at eq
      split at eq
      · rw [← eq] at leaving
        exact ne leaving
      · rw [← eq] at leaving
        cases leaving
    cases op with
    | readerLock | checkpoint | finish => cases called
    | readerUnlock =>
      have eq := Option.some.inj called
      unfold rluUnregisterThread at eq
      split at eq
      · exact ⟨rfl, pc, eq.symm⟩
      · rw [← eq] at leaving
        cases leaving
    | abort => exact (unregister (by simp) (Option.some.inj called)).elim
    | deref p | tryLock p | lock p | tryWriterLock l =>
      simp only [callInSection, ← apply_ite some, Option.some.injEq] at called
      subst called
      exfalso
      split_ifs at leaving <;> cases leaving
    | store c w x =>
      simp only [callInSection] at called
      split_ifs at called
      rw [← Option.some.inj called] at leaving
      cases leaving
    | free p =>
      exfalso
      have eq : rluFree s (s.thread t) p = e := Option.some.inj called
      rw [← eq] at leaving
      unfold rluFree at leaving
      split at leaving
      · cases leaving
      · split_ifs at leaving <;> cases leaving
      · cases leaving
  · rw [pc] at stepped
    cases stepped

end Step

/-! ### The newest contents -/

def Thread.unpublishedObjs (th : Thread ω) : List (Nat × (Nat → ω)) :=
  if th.flight.isSome then []
  else th.pendingObjs ++ if th.staged then th.currentObjs else []

theorem ThreadOk.mem_unpublishedObjs {cfg : Config} {t : Nat} {th : Thread ω}
    (h : ThreadOk cfg t th) {e : Nat × (Nat → ω)} :
    e ∈ th.unpublishedObjs ↔ ∃ ctr i, th.Unpublished ctr ∧
      i < (th.objWriteSet (wsIndex ctr)).numOfObjs ∧
      e = ((th.entry ctr i).pObjActual, (th.entry ctr i).copy) := by
  have ordered := h.wb_le_tail
  unfold Thread.unpublishedObjs Thread.Unpublished
  cases flight : th.flight with
  | some v =>
    constructor
    · intro mem
      cases mem
    · rintro ⟨ctr, i, ⟨none, -⟩, -⟩
      cases none
  | none =>
    have current : e ∈ th.currentObjs ↔ ∃ i < (th.objWriteSet (wsIndex th.wsTailCounter)).numOfObjs,
        e = ((th.entry th.wsTailCounter i).pObjActual, (th.entry th.wsTailCounter i).copy) := by
      unfold Thread.currentObjs Thread.wsObjs Thread.entry
      simp only [List.mem_map, List.mem_range]
      constructor
      · rintro ⟨_, ⟨i, num, rfl⟩, rfl⟩
        exact ⟨i, num, rfl⟩
      · rintro ⟨i, num, rfl⟩
        exact ⟨_, ⟨i, num, rfl⟩, rfl⟩
    rw [if_neg (by simp), List.mem_append, Thread.mem_pendingObjs]
    constructor
    · rintro (⟨ctr, i, ge, lt, num, eq⟩ | mem)
      · exact ⟨ctr, i, ⟨rfl, ge, .inl lt⟩, num, eq⟩
      · by_cases staged : th.staged = true
        · rw [if_pos staged, current] at mem
          obtain ⟨i, num, eq⟩ := mem
          exact ⟨_, i, ⟨rfl, ordered, .inr ⟨rfl, staged⟩⟩, num, eq⟩
        · rw [if_neg staged] at mem
          cases mem
    · rintro ⟨ctr, i, ⟨-, ge, lt | ⟨rfl, staged⟩⟩, num, eq⟩
      · exact .inl ⟨ctr, i, ge, lt, num, eq⟩
      · rw [if_pos staged, current]
        exact .inr ⟨i, num, eq⟩

/-- Every object with the newest contents that a section has left in it. -/
def State.newest (init : Nat → Nat → ω) (s : State ω) : Nat → Nat → ω :=
  overlay ((List.range s.gCurThreads).flatMap fun t => (s.thread t).unpublishedObjs)
    (valueAt init s.gWriterVersion s.published)

section Newest
variable [Inhabited ω] {cfg : Config} {s : State ω} {init : Nat → Nat → ω}

theorem Sound.started (sound : Sound cfg s) {t ctr : Nat} (unpublished : (s.thread t).Unpublished ctr) :
    t < s.gCurThreads := by
  by_contra beyond
  rw [sound.wf.fresh t (Nat.le_of_not_lt beyond)] at unpublished
  obtain ⟨-, -, lt | ⟨-, staged⟩⟩ := unpublished
  · exact absurd lt (Nat.not_lt_zero _)
  · cases staged

theorem Sound.mem_unpublished (sound : Sound cfg s) {e : Nat × (Nat → ω)} :
    e ∈ ((List.range s.gCurThreads).flatMap fun t => (s.thread t).unpublishedObjs) ↔
      ∃ t ctr i, (s.thread t).Unpublished ctr ∧
        i < ((s.thread t).objWriteSet (wsIndex ctr)).numOfObjs ∧
        e = (((s.thread t).entry ctr i).pObjActual, ((s.thread t).entry ctr i).copy) := by
  rw [List.mem_flatMap]
  constructor
  · rintro ⟨t, -, mem⟩
    obtain ⟨ctr, i, unpublished, num, eq⟩ := (sound.wf.threads t).mem_unpublishedObjs.mp mem
    exact ⟨t, ctr, i, unpublished, num, eq⟩
  · rintro ⟨t, ctr, i, unpublished, num, eq⟩
    exact ⟨t, List.mem_range.mpr (sound.started unpublished),
      (sound.wf.threads t).mem_unpublishedObjs.mpr ⟨ctr, i, unpublished, num, eq⟩⟩

theorem Sound.entry_inj (sound : Sound cfg s) {t u a b i j : Nat}
    (ha : (s.thread t).Unpublished a) (hi : i < ((s.thread t).objWriteSet (wsIndex a)).numOfObjs)
    (hb : (s.thread u).Unpublished b) (hj : j < ((s.thread u).objWriteSet (wsIndex b)).numOfObjs)
    (same : ((s.thread t).entry a i).pObjActual = ((s.thread u).entry b j).pObjActual) :
    t = u ∧ a = b ∧ i = j :=
  sound.locks.entry_inj sound.wf ((sound.wf.threads t).live_of_unpublished ha hi)
    ((sound.wf.threads u).live_of_unpublished hb hj) same

theorem Sound.newest_entry (sound : Sound cfg s) {t ctr i : Nat}
    (unpublished : (s.thread t).Unpublished ctr)
    (num : i < ((s.thread t).objWriteSet (wsIndex ctr)).numOfObjs) :
    s.newest init ((s.thread t).entry ctr i).pObjActual = ((s.thread t).entry ctr i).copy := by
  refine overlay_of_mem (sound.mem_unpublished.mpr ⟨t, ctr, i, unpublished, num, rfl⟩)
    fun e mem same => ?_
  obtain ⟨u, b, j, unpublished', num', rfl⟩ := sound.mem_unpublished.mp mem
  obtain ⟨rfl, rfl, rfl⟩ := sound.entry_inj unpublished' num' unpublished num same
  rfl

theorem Sound.newest_other (sound : Sound cfg s) {o : Nat}
    (ne : ∀ t ctr i, (s.thread t).Unpublished ctr →
      i < ((s.thread t).objWriteSet (wsIndex ctr)).numOfObjs →
      ((s.thread t).entry ctr i).pObjActual ≠ o) :
    s.newest init o = valueAt init s.gWriterVersion s.published o := by
  refine overlay_of_forall_ne fun e mem same => ?_
  obtain ⟨t, ctr, i, unpublished, num, rfl⟩ := sound.mem_unpublished.mp mem
  exact ne t ctr i unpublished num same

end Newest

/-! ### A publication -/

theorem valueAt_of_forall_ne {init : Nat → Nat → ω} {l o : Nat} {ps : List (Publication ω)}
    (ne : ∀ p ∈ ps, ∀ e ∈ p.objs, e.1 ≠ o) : valueAt init l ps o = init o := by
  induction ps with
  | nil => rfl
  | cons p ps ih =>
    have rest := ih fun q mem => ne q (List.mem_cons_of_mem _ mem)
    by_cases le : p.version ≤ l
    · rw [valueAt_cons_of_le le, overlay_of_forall_ne (ne p List.mem_cons_self), rest]
    · rw [valueAt_cons_of_lt (Nat.lt_of_not_le le), rest]

/-- What a version sees after a publication: nothing new, or the newest published contents under
those of the write sets. -/
theorem valueAt_publish {init : Nat → Nat → ω} {g : Nat} {objs : List (Nat × (Nat → ω))}
    {ps : List (Publication ω)} (versions : ∀ p ∈ ps, p.version ≤ g) (l : Nat) :
    valueAt init l (⟨g + 1, objs⟩ :: ps) =
      if l ≤ g then valueAt init l ps else overlay objs (valueAt init g ps) := by
  funext o
  split_ifs with le
  · exact valueAt_cons_of_lt (Nat.lt_succ_of_le le) o
  · rw [valueAt_cons_of_le (show (⟨g + 1, objs⟩ : Publication ω).version ≤ l by
      show g + 1 ≤ l
      omega), valueAt_congr (fun p mem => Nat.le_trans (versions p mem) (by omega)) versions]

section Keep
variable [Inhabited ω] {cfg : Config} {init : Nat → Nat → ω} {s : State ω} {a : Act ω} {t : Nat}
  {e : Effect ω}

/-- What is on the way after a step that ends no section was on the way, with the same entries. -/
theorem unpublished_back (sound : Sound cfg s) (right : RightSlot s a) (act : ActEffect cfg s a t e)
    (notLeaving : e.1.pc ≠ .readerUnlock) {u ctr : Nat}
    (on : ((s.apply t e.1 e.2).thread u).Unpublished ctr) :
    (s.thread u).Unpublished ctr ∧ ((s.apply t e.1 e.2).thread u).objWriteSet (wsIndex ctr) =
      (s.thread u).objWriteSet (wsIndex ctr) := by
  have h := sound.wf.threads t
  rw [State.apply_thread] at on ⊢
  by_cases eq : u = t
  · subst eq
    rw [Function.update_self] at on ⊢
    exact (actEffect_log h right act).unpublished h notLeaving on
  · rw [Function.update_of_ne eq] at on ⊢
    exact ⟨on, rfl⟩

omit [Inhabited ω] in
theorem staged_step (act : ActEffect cfg s a t e) (staged : (s.thread t).staged = true) :
    e.1.wsTailCounter = (s.thread t).wsTailCounter + 1 ∧ e.1.flight = (s.thread t).flight := by
  obtain ⟨pc, detected⟩ := Thread.staged_iff.mp staged
  obtain ⟨-, stepped⟩ := act.lib (by rw [pc]; rfl)
  rw [pc] at stepped
  have eff : readerUnlockStep cfg (s.thread t) = e := Option.some.inj stepped
  rw [← eff]
  simp only [readerUnlockStep, afterSync, if_pos detected]
  split_ifs <;> exact ⟨rfl, rfl⟩

/-- A step that ends no section leaves the newest contents as they are. -/
theorem newest_step (sound : Sound cfg s) (sound' : Sound cfg (s.apply t e.1 e.2))
    (versions : ∀ p ∈ s.published, p.version ≤ s.gWriterVersion) (right : RightSlot s a)
    (act : ActEffect cfg s a t e) (notLeaving : e.1.pc ≠ .readerUnlock) :
    (s.apply t e.1 e.2).newest init = s.newest init := by
  have h := sound.wf.threads t
  have log := actEffect_log h right act
  have self : (s.apply t e.1 e.2).thread t = e.1 := by
    rw [State.apply_thread, Function.update_self]
  have other {u : Nat} (ne : u ≠ t) : (s.apply t e.1 e.2).thread u = s.thread u := by
    rw [State.apply_thread, Function.update_of_ne ne]
  -- an object that is named on its way afterwards was so before
  have before {o : Nat} (free : ∀ u ctr i, (s.thread u).Unpublished ctr →
      i < ((s.thread u).objWriteSet (wsIndex ctr)).numOfObjs → ((s.thread u).entry ctr i).pObjActual ≠ o) :
      (s.apply t e.1 e.2).newest init o =
        valueAt init (s.apply t e.1 e.2).gWriterVersion (s.apply t e.1 e.2).published o := by
    refine sound'.newest_other fun u ctr i on num => ?_
    obtain ⟨on, same⟩ := unpublished_back sound right act notLeaving on
    unfold Thread.entry
    rw [same] at num ⊢
    exact free u ctr i on num
  funext o
  by_cases named : ∃ u ctr i, (s.thread u).Unpublished ctr ∧
      i < ((s.thread u).objWriteSet (wsIndex ctr)).numOfObjs ∧ ((s.thread u).entry ctr i).pObjActual = o
  · obtain ⟨u, ctr, i, on, num, rfl⟩ := named
    rw [sound.newest_entry on num]
    have stays (on' : ((s.apply t e.1 e.2).thread u).Unpublished ctr) :
        (s.apply t e.1 e.2).newest init ((s.thread u).entry ctr i).pObjActual =
          ((s.thread u).entry ctr i).copy := by
      obtain ⟨-, same⟩ := unpublished_back sound right act notLeaving on'
      have entry : ((s.apply t e.1 e.2).thread u).entry ctr i = (s.thread u).entry ctr i := by
        unfold Thread.entry
        rw [same]
      rw [← entry]
      exact sound'.newest_entry on' (by rw [same]; exact num)
    by_cases eq : u = t
    · subst eq
      rcases log.publishes h (sound.grace.acquires u) with
        ⟨-, writer⟩ | ⟨idle, flying, published, writer⟩
      · refine stays ?_
        rw [self]
        exact log.unpublished_kept h on (fun staged => (staged_step act staged).1) writer
      · have pending : ctr < (s.thread u).wsTailCounter := by
          obtain ⟨-, -, lt | ⟨-, staged⟩⟩ := on
          · exact lt
          · exact absurd ((staged_step act staged).2.trans idle) flying
        rw [sound'.newest_other, published, writer, valueAt_publish versions, if_neg (by omega)]
        · refine overlay_of_mem (Thread.mem_pendingObjs.mpr ⟨ctr, i, on.2.1, pending, num, rfl⟩)
            fun x mem same => ?_
          obtain ⟨ctr', j, ge, lt, num', rfl⟩ := Thread.mem_pendingObjs.mp mem
          obtain ⟨-, rfl, rfl⟩ := sound.entry_inj ⟨idle, ge, .inl lt⟩ num' on num same
          rfl
        · intro v b j on' num' same
          obtain ⟨old, sets⟩ := unpublished_back sound right act notLeaving on'
          unfold Thread.entry at same
          rw [sets] at same num'
          obtain ⟨rfl, -⟩ := sound.entry_inj old num' on num same
          rw [self] at on'
          exact flying on'.1
    · refine stays ?_
      rw [other eq]
      exact on
  · have free (u ctr i : Nat) (on : (s.thread u).Unpublished ctr)
        (num : i < ((s.thread u).objWriteSet (wsIndex ctr)).numOfObjs) :
        ((s.thread u).entry ctr i).pObjActual ≠ o := fun same => named ⟨u, ctr, i, on, num, same⟩
    rw [before free, sound.newest_other free]
    rcases log.publishes h (sound.grace.acquires t) with
      ⟨published, writer⟩ | ⟨idle, -, published, writer⟩
    · rw [published, writer]
    · rw [published, writer, valueAt_publish versions, if_neg (by omega)]
      refine overlay_of_forall_ne fun x mem => ?_
      obtain ⟨ctr, i, ge, lt, num, rfl⟩ := Thread.mem_pendingObjs.mp mem
      exact free t ctr i ⟨idle, ge, .inl lt⟩ num

end Keep

end ReadLogUpdate
