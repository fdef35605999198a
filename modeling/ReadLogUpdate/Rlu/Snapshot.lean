import ReadLogUpdate.Rlu.Shortcuts

/-!
# Snapshots

What a section with version `l` sees: an object has the value that the write sets published up
to `l` gave it, in the copy of an older write set that still has it locked, else in place.
-/

namespace ReadLogUpdate

variable {ω : Type}

/-! ### Published values -/

theorem valueAt_cons_of_lt {init : Nat → Nat → ω} {l : Nat} {p : Publication ω}
    {ps : List (Publication ω)} (lt : l < p.version) (o : Nat) :
    valueAt init l (p :: ps) o = valueAt init l ps o := if_neg (Nat.not_le.mpr lt)

theorem valueAt_cons_of_le {init : Nat → Nat → ω} {l : Nat} {p : Publication ω}
    {ps : List (Publication ω)} (le : p.version ≤ l) (o : Nat) :
    valueAt init l (p :: ps) o = overlay p.objs (valueAt init l ps) o := if_pos le

theorem valueAt_congr {init : Nat → Nat → ω} {l l' : Nat} {ps : List (Publication ω)}
    (le : ∀ p ∈ ps, p.version ≤ l) (le' : ∀ p ∈ ps, p.version ≤ l') :
    valueAt init l ps = valueAt init l' ps := by
  induction ps with
  | nil => rfl
  | cons p ps ih =>
    have ih := ih (fun q mem => le q (List.mem_cons_of_mem _ mem))
      fun q mem => le' q (List.mem_cons_of_mem _ mem)
    funext o
    rw [valueAt_cons_of_le (le p List.mem_cons_self), valueAt_cons_of_le (le' p List.mem_cons_self),
      ih]

/-- What an overlay says of an object that it does not mention. -/
theorem overlay_of_forall_ne {new : List (Nat × (Nat → ω))} {old : Nat → Nat → ω} {o : Nat}
    (ne : ∀ e ∈ new, e.1 ≠ o) : overlay new old o = old o := by
  unfold overlay
  rw [List.find?_eq_none.mpr fun e mem => by simpa using ne e mem]
  rfl

/-- What an overlay says of an object that it mentions once. -/
theorem overlay_of_mem {new : List (Nat × (Nat → ω))} {old : Nat → Nat → ω} {o : Nat}
    {x : Nat → ω} (mem : (o, x) ∈ new) (unique : ∀ e ∈ new, e.1 = o → e.2 = x) :
    overlay new old o = x := by
  unfold overlay
  cases found : new.find? fun e => e.1 = o with
  | none => exact absurd (List.find?_eq_none.mp found _ mem) (by simp)
  | some e => exact unique e (List.mem_of_find?_eq_some found) (by simpa using List.find?_some found)

/-- The pending objects of a thread are the entries of its pending write sets. -/
theorem Thread.mem_pendingObjs {th : Thread ω} {e : Nat × (Nat → ω)} :
    e ∈ th.pendingObjs ↔ ∃ ctr i, th.wsWbCounter ≤ ctr ∧ ctr < th.wsTailCounter ∧
      i < (th.objWriteSet (wsIndex ctr)).numOfObjs ∧
      e = ((th.entry ctr i).pObjActual, (th.entry ctr i).copy) := by
  unfold Thread.pendingObjs Thread.wsObjs Thread.entry
  simp only [List.mem_flatMap, List.mem_map, List.mem_range, List.mem_range'_1]
  constructor
  · rintro ⟨ctr, ⟨ge, lt⟩, _, ⟨i, num, rfl⟩, rfl⟩
    exact ⟨ctr, i, ge, by omega, num, rfl⟩
  · rintro ⟨ctr, i, ge, lt, num, rfl⟩
    exact ⟨ctr, ⟨ge, by omega⟩, _, ⟨i, num, rfl⟩, rfl⟩

theorem LogStep.published {cfg : Config} {t : Nat} {s s' : State ω} {th th' : Thread ω}
    (acquires : th.Acquires s.gWriterVersion) (step : LogStep cfg t s s' th th') :
    s'.published = s.published ∧ s'.gWriterVersion = s.gWriterVersion ∨
    s'.published = ⟨s.gWriterVersion + 1, th.pendingObjs⟩ :: s.published ∧
      s'.gWriterVersion = s.gWriterVersion + 1 := by
  cases step with
  | quiet objects => exact .inl ⟨objects.published, objects.writerVersion⟩
  | write ws objects => exact .inl ⟨objects.published, objects.writerVersion⟩
  | publish k pc record state =>
    unfold Thread.Acquires at acquires
    rw [pc] at acquires
    subst record state
    refine .inr ⟨?_, rfl⟩
    show Publication.mk (th.writerVersion.getD 0) _ :: _ = _
    rw [acquires]
    rfl
  | lock o pc free record state => exact .inl (by rw [state]; exact ⟨rfl, rfl⟩)
  | commit pc' pc detected next record state => exact .inl (by rw [state]; exact ⟨rfl, rfl⟩)
  | abortUnlock i pc record state => exact .inl (by rw [state]; exact ⟨rfl, rfl⟩)
  | recycle k pc record state => exact .inl (by rw [state]; exact ⟨rfl, rfl⟩)
  | writeWord k ctr i w pc bound record state => exact .inl (by rw [state]; exact ⟨rfl, rfl⟩)
  | unlock k ctr i pc record state => exact .inl (by rw [state]; exact ⟨rfl, rfl⟩)
  | finishWb k pc record state => exact .inl (by rw [state]; exact ⟨rfl, rfl⟩)
  | commitVersion k pc record state => exact .inl (by rw [state]; exact ⟨rfl, rfl⟩)

theorem LogStep.valueAt_eq {cfg : Config} {t : Nat} {s s' : State ω} {th th' : Thread ω}
    (acquires : th.Acquires s.gWriterVersion) (step : LogStep cfg t s s' th th')
    (init : Nat → Nat → ω) {l : Nat} (le : l ≤ s.gWriterVersion) :
    valueAt init l s'.published = valueAt init l s.published := by
  rcases step.published acquires with ⟨same, -⟩ | ⟨published, -⟩
  · rw [same]
  · funext o
    rw [published]
    exact valueAt_cons_of_lt (Nat.lt_succ_of_le le) o

/-! ### The running write-back -/

/-- The words that `rlu_writeback_write_set` has copied so far. -/
def Written (cfg : Config) (s : State ω) (th : Thread ω) : Prop :=
  match th.pc with
  | .sync _ (.copy ctr i x) => ∀ w < x, w < cfg.objWords →
      s.obj (th.entry ctr i).pObjActual w = (th.entry ctr i).copy w
  | .sync _ (.check ctr i) | .sync _ (.unlock ctr i) => ∀ w < cfg.objWords,
      s.obj (th.entry ctr i).pObjActual w = (th.entry ctr i).copy w
  | _ => True

theorem syncStep_written {cfg : Config} {t : Nat} {s : State ω} {th : Thread ω} {k : Caller}
    {pc : SyncPc} (hpc : th.pc = .sync k pc) (written : Written cfg s th) :
    Written cfg (s.apply t (syncStep cfg s t th k pc).1 (syncStep cfg s t th k pc).2)
      (syncStep cfg s t th k pc).1 := by
  have after (th : Thread ω) : Written cfg (s.apply t (afterSync th k).1 (afterSync th k).2)
      (afterSync th k).1 := by
    unfold Written
    split
    · rename_i e
      cases afterSync_start k e
    · rename_i e
      cases afterSync_start k e
    · rename_i e
      cases afterSync_start k e
    · trivial
  unfold Written at written
  rw [hpc] at written
  cases pc with
  | start =>
    simp only [syncStep]
    split_ifs
    · exact after th
    · trivial
    · trivial
  | entry ctr i =>
    simp only [syncStep]
    split_ifs
    · exact fun w lt => absurd lt (Nat.not_lt_zero w)
    all_goals trivial
  | copy ctr i x =>
    simp only [syncStep]
    split_ifs with bound
    · intro w lt lt'
      show Function.update s.obj _ (Function.update _ x _) _ w = (th.entry ctr i).copy w
      unfold Thread.entry
      rw [Function.update_self]
      by_cases eq : w = x
      · rw [eq, Function.update_self]
      · rw [Function.update_of_ne eq]
        exact written w (by omega) lt'
    · exact fun w lt => written w (by omega) lt
  | check ctr i =>
    simp only [syncStep]
    split
    · split_ifs
      · exact written
      · trivial
    · trivial
  | freeCheck i =>
    simp only [syncStep]
    repeat' split
    · trivial
    · trivial
    · exact after _
  | _ =>
    simp only [syncStep]
    (repeat' split) <;> trivial

/-- A write to an object is made by the thread that has it locked. -/
theorem LogStep.obj {cfg : Config} {t : Nat} {s s' : State ω} {th th' : Thread ω}
    (h : ThreadOk cfg t th) (step : LogStep cfg t s s' th th') :
    s'.obj = s.obj ∨ ∃ k ctr i w, th.pc = .sync k (.copy ctr i w) ∧ th.Live ctr i ∧
      s'.hdr = s.hdr ∧ th'.flight = th.flight ∧
      s'.obj = Function.update s.obj (th.entry ctr i).pObjActual
        (Function.update (s.obj (th.entry ctr i).pObjActual) w ((th.entry ctr i).copy w)) := by
  cases step with
  | quiet objects => exact .inl objects.obj
  | write ws objects => exact .inl objects.obj
  | writeWord k ctr i w pc bound record state =>
    have control := h.control
    rw [pc] at control
    obtain ⟨-, lt, num⟩ := control
    refine .inr ⟨k, ctr, i, w, pc, ?_, by rw [state]; rfl, by rw [record], by rw [state]; rfl⟩
    unfold Thread.Live
    rw [pc]
    exact ⟨.inr ⟨rfl, Nat.le_refl _⟩, .inl ⟨lt, num⟩⟩
  | lock o pc free record state => exact .inl (by rw [state]; rfl)
  | commit pc' pc detected next record state => exact .inl (by rw [state]; rfl)
  | abortUnlock i pc record state => exact .inl (by rw [state]; rfl)
  | publish k pc record state => exact .inl (by rw [state]; rfl)
  | recycle k pc record state => exact .inl (by rw [state]; rfl)
  | unlock k ctr i pc record state => exact .inl (by rw [state]; rfl)
  | finishWb k pc record state => exact .inl (by rw [state]; rfl)
  | commitVersion k pc record state => exact .inl (by rw [state]; rfl)

theorem ThreadOk.live_of_written {cfg : Config} {t : Nat} {th : Thread ω} (h : ThreadOk cfg t th)
    {k : Caller} {ctr i : Nat} (hpc : (∃ x, th.pc = .sync k (.copy ctr i x)) ∨
      th.pc = .sync k (.check ctr i) ∨ th.pc = .sync k (.unlock ctr i)) : th.Live ctr i := by
  have control := h.control
  unfold Thread.Live
  rcases hpc with ⟨x, hpc⟩ | hpc | hpc <;>
  · rw [hpc] at control ⊢
    exact ⟨.inr ⟨rfl, Nat.le_refl _⟩, .inl control.2⟩

theorem actEffect_written [Inhabited ω] {cfg : Config} {s : State ω} {a : Act ω} {t : Nat}
    {e : Effect ω} (wf : WellFormed cfg s) (inv : LockInv s) (right : RightSlot s a)
    (written : ∀ u, Written cfg s (s.thread u)) (act : ActEffect cfg s a t e) (u : Nat) :
    Written cfg (s.apply t e.1 e.2) ((s.apply t e.1 e.2).thread u) := by
  rw [State.apply_thread]
  by_cases eq : u = t
  · subst eq
    rw [Function.update_self]
    have syncing {k : Caller} {q : SyncPc} (hpc : e.1.pc = .sync k q) (later : q ≠ .start) :
        Written cfg (s.apply u e.1 e.2) e.1 := by
      rcases actEffect_start act hpc with start | ⟨k', q', from_⟩
      · exact absurd start later
      · obtain ⟨-, stepped⟩ := act.lib (by rw [from_]; rfl)
        rw [from_] at stepped
        obtain rfl := Option.some.inj stepped
        exact syncStep_written from_ (written u)
    cases hpc : e.1.pc with
    | sync k q =>
      by_cases start : q = .start
      · unfold Written
        rw [hpc, start]
        trivial
      · exact syncing hpc start
    | _ =>
      unfold Written
      rw [hpc]
      trivial
  · rw [Function.update_of_ne eq]
    have here := written u
    have ne {ctr i : Nat} (live : (s.thread u).Live ctr i) :
        (s.apply t e.1 e.2).obj ((s.thread u).entry ctr i).pObjActual =
          s.obj ((s.thread u).entry ctr i).pObjActual := by
      rcases (actEffect_log (wf.threads t) right act).obj (wf.threads t) with
        same | ⟨k, c, j, w, -, live', -, -, obj⟩
      · rw [same]
      · rw [obj]
        exact Function.update_of_ne (fun e => eq (inv.entry_inj wf live live' e).1) _ _
    have h := wf.threads u
    unfold Written at here ⊢
    split at here
    · rename_i hpc
      rw [ne (h.live_of_written (.inl ⟨_, hpc⟩))]
      exact here
    · rename_i hpc
      rw [ne (h.live_of_written (.inr (.inl hpc)))]
      exact here
    · rename_i hpc
      rw [ne (h.live_of_written (.inr (.inr hpc)))]
      exact here
    · trivial

/-! ### The view of a version -/

/-- Where version `l` finds the value of every object. -/
structure View (cfg : Config) (init : Nat → Nat → ω) (s : State ω) (l : Nat) : Prop where
  locked : ∀ o c, OldLock s l o c → ∀ w < cfg.objWords,
    (s.wsObj c).copy w = valueAt init l s.published o w
  inPlace : ∀ o, (∀ c, ¬ OldLock s l o c) → ∀ w < cfg.objWords,
    s.obj o w = valueAt init l s.published o w

/-- The copy that an older write set locks stays as it is. -/
theorem LogStep.wsObj_of_flight {cfg : Config} {t : Nat} {s s' : State ω} {th' : Thread ω}
    (thread : s'.thread = Function.update s.thread t th')
    (step : LogStep cfg t s s' (s.thread t) th') {c : CopyAddr} {v : Nat}
    (flight : (s.thread c.owner).flight = some v) : s'.wsObj c = s.wsObj c := by
  unfold State.wsObj
  rw [thread]
  by_cases e : c.owner = t
  · subst e
    rw [Function.update_self]
    cases step with
    | quiet objects log => rw [log.log]
    | write ws objects window log live actual owned strict none =>
      rw [none] at flight
      cases flight
    | recycle k pc record =>
      rw [record]
      dsimp only
      rw [rluResetWriteSets_buffer]
    | lock o pc free record => rw [record]
    | commit pc' pc detected next record => rw [record]
    | abortUnlock i pc record => rw [record]
    | publish k pc record => rw [record]
    | writeWord k ctr i w pc bound record => rw [record]
    | unlock k ctr i pc record => rw [record]
    | finishWb k pc record => rw [record]
    | commitVersion k pc record => rw [record]
  · rw [Function.update_of_ne e]

section Step
variable [Inhabited ω] {cfg : Config} {s : State ω} {a : Act ω} {t : Nat} {e : Effect ω}

/-- An older lock that goes away leaves its copy in the object. -/
theorem actEffect_unlocked (sound : Sound cfg s) (written : ∀ u, Written cfg s (s.thread u))
    (right : RightSlot s a) (act : ActEffect cfg s a t e) {l o : Nat} {c : CopyAddr}
    (before : OldLock s l o c) (after : ¬ OldLock (s.apply t e.1 e.2) l o c) :
    ∀ w < cfg.objWords, s.obj o w = (s.wsObj c).copy w := by
  obtain ⟨held, v, flight, le⟩ := before
  have h := sound.wf.threads t
  have control := h.control
  have stays {p : Prop} (hdr : (s.apply t e.1 e.2).hdr o = s.hdr o)
      (same : c.owner = t → e.1.flight = (s.thread t).flight) : p := by
    refine absurd ⟨hdr.trans held, v, ?_, le⟩ after
    rw [State.apply_thread]
    by_cases eq : c.owner = t
    · rw [eq, Function.update_self, same eq, ← eq]
      exact flight
    · rw [Function.update_of_ne eq]
      exact flight
  -- a header that is overwritten belongs to the thread that steps
  have own {ctr i : Nat} (live : (s.thread t).Live ctr i)
      (here : o = ((s.thread t).entry ctr i).pObjActual) : c = ⟨t, wsIndex ctr, i⟩ := by
    have installed := sound.locks.installed t ctr i live
    rw [← here, held] at installed
    exact PObjCopy.copy.inj installed
  cases actEffect_log h right act with
  | quiet objects log same => exact stays (by rw [objects.hdr]) fun _ => same
  | write ws objects window log live actual owned strict none none' =>
    exact stays (by rw [objects.hdr]) fun _ => none'.trans none.symm
  | lock o' pc free record state =>
    refine stays ?_ fun _ => by rw [record]
    rw [state]
    exact Function.update_of_ne (fun eq => by rw [eq, free] at held; cases held) _ _
  | commit pc' pc detected next record state =>
    exact stays (by rw [state]; rfl) fun _ => by rw [record]
  | abortUnlock i pc record state =>
    by_cases here : o = ((s.thread t).cur.buffer i).pObjActual
    · rw [pc] at control
      obtain ⟨outside, -, lt⟩ := control
      have live : (s.thread t).Live (s.thread t).wsTailCounter i := by
        rw [Thread.live_iff (by rw [pc]; rfl), pc, ← h.curId]
        exact ⟨h.wb_le_tail, .inr ⟨rfl, lt, Nat.lt_irrefl i⟩⟩
      obtain rfl := own live (by rw [Thread.entry, ← h.curId]; exact here)
      rw [outside.2.2.1] at flight
      cases flight
    · refine stays ?_ fun _ => by rw [record]
      rw [state]
      exact Function.update_of_ne here _ _
  | publish k pc record state =>
    refine stays (by rw [state]; rfl) fun mine => ?_
    rw [pc] at control
    rw [mine, control.2.1] at flight
    cases flight
  | recycle k pc record state => exact stays (by rw [state]; rfl) fun _ => by rw [record]
  | writeWord k ctr i w pc bound record state =>
    exact stays (by rw [state]; rfl) fun _ => by rw [record]
  | unlock k ctr i pc record state =>
    by_cases here : o = ((s.thread t).entry ctr i).pObjActual
    · obtain rfl := own (h.live_of_written (.inr (.inr pc))) here
      have copied := written t
      unfold Written at copied
      rw [pc] at copied
      subst here
      exact copied
    · refine stays ?_ fun _ => by rw [record]
      rw [state]
      exact Function.update_of_ne here _ _
  | finishWb k pc record state => exact stays (by rw [state]; rfl) fun _ => by rw [record]
  | commitVersion k pc record state =>
    refine stays (by rw [state]; rfl) fun mine => ?_
    -- the write-back is over, so the thread holds no lock any more
    rw [pc] at control
    obtain ⟨ctr, live, -⟩ := sound.locks.logged o c held
    rw [mine] at live flight
    have shown := h.writerVersion_of_live flight live
    rw [control.2.2.2.1] at shown
    cases shown

/-- The view of a version stays when nothing newer is written back. -/
theorem actEffect_view (sound : Sound cfg s) (written : ∀ u, Written cfg s (s.thread u))
    (right : RightSlot s a) (act : ActEffect cfg s a t e) {init : Nat → Nat → ω} {l : Nat}
    (le : l ≤ s.gWriterVersion) (writers : ∀ k ctr i x v,
      (s.thread t).pc = .sync k (.copy ctr i x) → (s.thread t).flight = some v → v ≤ l)
    (view : View cfg init s l) : View cfg init (s.apply t e.1 e.2) l := by
  have h := sound.wf.threads t
  have log := actEffect_log h right act
  have values := log.valueAt_eq (sound.grace.acquires t) init le
  refine ⟨fun o c old w lt => ?_, fun o none w lt => ?_⟩
  · have before := actEffect_oldLock sound.wf sound.grace right act le old
    obtain ⟨v, flight, -⟩ := before.2
    rw [values, log.wsObj_of_flight (State.apply_thread s t e.1 e.2) flight]
    exact view.locked o c before w lt
  · rw [values]
    rcases log.obj h with same | ⟨k, ctr, i, x, pc, live, hdr, flights, obj⟩
    · rw [same]
      by_cases before : ∃ c, OldLock s l o c
      · obtain ⟨c, before⟩ := before
        rw [actEffect_unlocked sound written right act before (none c) w lt]
        exact view.locked o c before w lt
      · exact view.inPlace o (not_exists.mp before) w lt
    · have kept (o' : Nat) (c : CopyAddr) (before : OldLock s l o' c) :
          OldLock (s.apply t e.1 e.2) l o' c := by
        obtain ⟨held, v, flight, le⟩ := before
        refine ⟨by rwa [hdr], v, ?_, le⟩
        rw [State.apply_thread]
        by_cases eq : c.owner = t
        · rw [eq, Function.update_self, flights, ← eq]
          exact flight
        · rw [Function.update_of_ne eq]
          exact flight
      -- the object that is written is locked by a write set that the version has
      have ne : o ≠ ((s.thread t).entry ctr i).pObjActual := by
        rintro rfl
        have control := h.control
        rw [pc] at control
        obtain ⟨v, flight⟩ := control.1.2.2.2.2.2.2.1
        exact none ⟨t, wsIndex ctr, i⟩ (kept _ _ ⟨sound.locks.installed t ctr i live, v + 1, flight,
          writers k ctr i x (v + 1) pc flight⟩)
      rw [obj, Function.update_of_ne ne]
      exact view.inPlace o (fun c before => none c (kept o c before)) w lt

/-- Drawing a version adds the pending write sets to what the latest version sees. -/
theorem publish_view (sound : Sound cfg s) {k : Caller} (pc : (s.thread t).pc = .sync k .fetchAdd)
    {init : Nat → Nat → ω} (versions : ∀ p ∈ s.published, p.version ≤ s.gWriterVersion)
    (view : View cfg init s s.gWriterVersion) {s' : State ω} (hdr : s'.hdr = s.hdr)
    (obj : s'.obj = s.obj) (wsObj : s'.wsObj = s.wsObj)
    (drawn : (s'.thread t).flight = some (s.gWriterVersion + 1))
    (others : ∀ u, u ≠ t → (s'.thread u).flight = (s.thread u).flight)
    (published : s'.published = ⟨s.gWriterVersion + 1, (s.thread t).pendingObjs⟩ :: s.published) :
    View cfg init s' (s.gWriterVersion + 1) := by
  have control := (sound.wf.threads t).control
  rw [pc] at control
  have values (o : Nat) : valueAt init (s.gWriterVersion + 1) s'.published o =
      overlay (s.thread t).pendingObjs (valueAt init s.gWriterVersion s.published) o := by
    rw [published, valueAt_cons_of_le (by exact Nat.le_refl _),
      valueAt_congr (fun p mem => Nat.le_succ_of_le (versions p mem)) versions]
  have live_of {ctr i : Nat} (ge : (s.thread t).wsWbCounter ≤ ctr)
      (lt : ctr < (s.thread t).wsTailCounter)
      (num : i < ((s.thread t).objWriteSet (wsIndex ctr)).numOfObjs) : (s.thread t).Live ctr i :=
    (Thread.live_iff (by rw [pc]; rfl) ctr i).mpr ⟨ge, .inl ⟨lt, num⟩⟩
  -- an object that the new write set mentions is locked by it
  have mentioned {e : Nat × (Nat → ω)} (mem : e ∈ (s.thread t).pendingObjs) :
      ∃ c, c.owner = t ∧ s.hdr e.1 = .copy c := by
    obtain ⟨ctr, i, ge, lt, num, rfl⟩ := Thread.mem_pendingObjs.mp mem
    exact ⟨_, rfl, sound.locks.installed t ctr i (live_of ge lt num)⟩
  have others' {o : Nat} {c : CopyAddr} (held : s.hdr o = .copy c) (ne : c.owner ≠ t) :
      overlay (s.thread t).pendingObjs (valueAt init s.gWriterVersion s.published) o =
        valueAt init s.gWriterVersion s.published o := by
    refine overlay_of_forall_ne fun e mem eq => ?_
    obtain ⟨c', own, held'⟩ := mentioned mem
    rw [eq, held] at held'
    exact ne (PObjCopy.copy.inj held' ▸ own)
  refine ⟨fun o c old w lt => ?_, fun o none w lt => ?_⟩
  · obtain ⟨held, v, flight, le⟩ := old
    rw [hdr] at held
    rw [values, wsObj]
    by_cases own : c.owner = t
    · obtain ⟨ctr, live, slot, actual⟩ := sound.locks.logged o c held
      rw [own] at live actual
      have entry : s.wsObj c = (s.thread t).entry ctr c.idx := by
        rw [State.wsObj, Thread.entry, own, slot]
      obtain ⟨ge, ⟨lt', num⟩ | ⟨-, -, active⟩⟩ := (Thread.live_iff (by rw [pc]; rfl) _ _).mp live
      · rw [overlay_of_mem (x := ((s.thread t).entry ctr c.idx).copy)
          (Thread.mem_pendingObjs.mpr ⟨ctr, c.idx, ge, lt', num, by rw [actual]⟩), entry]
        rintro e mem eq
        obtain ⟨ctr', i', ge', lt'', num', rfl⟩ := Thread.mem_pendingObjs.mp mem
        obtain ⟨-, rfl, rfl⟩ := sound.locks.entry_inj sound.wf (live_of ge' lt'' num') live
          (eq.trans actual.symm)
        rfl
      · rw [pc] at active
        exact absurd trivial active
    · rw [others c.owner own] at flight
      rw [others' held own]
      exact view.locked o c ⟨held, v, flight, sound.grace.clock.flight_le c.owner v flight⟩ w lt
  · rw [obj, values, overlay_of_forall_ne fun e mem eq => ?_]
    · refine view.inPlace o (fun c old => ?_) w lt
      obtain ⟨held, v, flight, le⟩ := old
      have ne : c.owner ≠ t := by
        rintro rfl
        rw [control.2.1] at flight
        cases flight
      exact none c ⟨by rwa [hdr], v, by rwa [others c.owner ne], Nat.le_succ_of_le le⟩
    · obtain ⟨c, own, held⟩ := mentioned mem
      rw [eq] at held
      exact none c ⟨by rwa [hdr], _, by rw [own, drawn], Nat.le_refl _⟩

/-- The latest version sees the value of every object after all published write sets. -/
theorem actEffect_latest (sound : Sound cfg s) (written : ∀ u, Written cfg s (s.thread u))
    (right : RightSlot s a) (act : ActEffect cfg s a t e) {init : Nat → Nat → ω}
    (versions : ∀ p ∈ s.published, p.version ≤ s.gWriterVersion)
    (view : View cfg init s s.gWriterVersion) :
    View cfg init (s.apply t e.1 e.2) (s.apply t e.1 e.2).gWriterVersion := by
  have kept (same : (s.apply t e.1 e.2).gWriterVersion = s.gWriterVersion) :
      View cfg init (s.apply t e.1 e.2) (s.apply t e.1 e.2).gWriterVersion := by
    rw [same]
    exact actEffect_view sound written right act (Nat.le_refl _)
      (fun k ctr i x v _ flight => sound.grace.clock.flight_le t v flight) view
  rcases actEffect_clock sound.wf sound.grace right act with
    ⟨same, -⟩ | ⟨⟨k, pc⟩, drawn, -⟩ | ⟨-, reported⟩
  · exact kept (congrArg VersionClock.Clock.begun same)
  · obtain ⟨-, stepped⟩ := act.lib (by rw [pc]; rfl)
    rw [pc] at stepped
    obtain rfl := Option.some.inj stepped
    have acquires := sound.grace.acquires t
    unfold Thread.Acquires at acquires
    rw [pc] at acquires
    refine publish_view sound pc versions view rfl rfl ?_ ?_ (fun u ne => ?_) ?_
    · funext c
      unfold State.wsObj
      rw [State.apply_thread]
      by_cases eq : c.owner = t
      · rw [eq, Function.update_self]
        rfl
      · rw [Function.update_of_ne eq]
    · rw [State.apply_thread, Function.update_self]
      exact acquires
    · rw [State.apply_thread, Function.update_of_ne ne]
    · show Publication.mk ((s.thread t).writerVersion.getD 0) _ :: _ = _
      rw [acquires]
      rfl
  · exact kept (congrArg VersionClock.Clock.begun reported)

end Step

/-! ### Copies that sections use -/

/-- The copy holds what version `l` has to see of `o`, and its slot is not used again while a
section with that version runs. -/
def Kept (cfg : Config) (init : Nat → Nat → ω) (s : State ω) (l o : Nat) (c : CopyAddr) : Prop :=
  (∀ w < cfg.objWords, (s.wsObj c).copy w = valueAt init l s.published o w) ∧
  ∃ ctr, wsIndex ctr = c.slot ∧ (s.thread c.owner).wsHeadCounter ≤ ctr ∧
    ctr < (s.thread c.owner).wsTailCounter ∧
    ∀ v, (s.thread c.owner).flight = some v → v ≤ l → (s.thread c.owner).pc.waiting →
      (s.thread c.owner).wsWbCounter ≤ ctr

section Kept
variable [Inhabited ω] {cfg : Config} {s : State ω} {a : Act ω} {t : Nat} {e : Effect ω}

theorem OldLock.kept (sound : Sound cfg s) {init : Nat → Nat → ω} {l o : Nat} {c : CopyAddr}
    (view : View cfg init s l) (old : OldLock s l o c) : Kept cfg init s l o c := by
  obtain ⟨held, v, flight, le⟩ := id old
  have h := sound.wf.threads c.owner
  obtain ⟨ctr, live, slot, -⟩ := sound.locks.logged o c held
  have ge := h.live_ge live
  refine ⟨view.locked o c old, ctr, slot, Nat.le_trans h.head_le_wb ge, ?_, fun _ _ _ _ => ge⟩
  obtain ⟨-, ⟨lt, -⟩ | ⟨-, -, active⟩⟩ := live
  · exact lt
  · exact absurd ((h.control.inFlight flight).1 c.idx) active

omit [Inhabited ω] in
/-- What the thread that steps keeps of a slot between its head and its tail. -/
theorem LogStep.kept {s' : State ω} {th th' : Thread ω} (h : ThreadOk cfg t th)
    (step : LogStep cfg t s s' th th') {l ctr : Nat} (acquires : th.Acquires s.gWriterVersion)
    (le : l ≤ s.gWriterVersion)
    (waited : ∀ k v, th.pc = .sync k .reset → th.flight = some v → v ≤ l)
    (ge : th.wsHeadCounter ≤ ctr) (lt : ctr < th.wsTailCounter)
    (waits : ∀ v, th.flight = some v → v ≤ l → th.pc.waiting → th.wsWbCounter ≤ ctr) :
    (th'.objWriteSet (wsIndex ctr)).buffer = (th.objWriteSet (wsIndex ctr)).buffer ∧
    th'.wsHeadCounter ≤ ctr ∧ ctr < th'.wsTailCounter ∧
    ∀ v, th'.flight = some v → v ≤ l → th'.pc.waiting → th'.wsWbCounter ≤ ctr := by
  cases step with
  | quiet objects log flight waiting =>
    obtain ⟨head, wb, tail, -⟩ := Thread.window_eq log.window
    rw [head, wb, tail, flight, log.log]
    exact ⟨rfl, ge, lt, fun v flight le wait => waits v flight le (waiting wait)⟩
  | write ws objects window log live actual owned strict none none' =>
    obtain ⟨head, wb, tail, -⟩ := Thread.window_eq window
    rw [head, wb, tail, none', log, Function.update_of_ne (h.slot_ne strict ge lt)]
    exact ⟨rfl, ge, lt, nofun⟩
  | commit pc' pc detected next record =>
    subst record
    refine ⟨rfl, ge, Nat.lt_succ_of_lt lt, fun v _ _ wait => ?_⟩
    rcases next with rfl | rfl <;> exact wait.elim
  | publish k pc record =>
    subst record
    refine ⟨rfl, ge, lt, fun v flight le' => ?_⟩
    unfold Thread.Acquires at acquires
    rw [pc] at acquires
    obtain rfl := Option.some.inj (acquires.symm.trans flight)
    omega
  | recycle k pc record =>
    have control := h.control
    rw [pc] at control
    obtain ⟨v, flight⟩ := control.2.1
    have past := waits _ flight (waited k _ pc flight) (by rw [pc]; trivial)
    subst record
    exact ⟨rluResetWriteSets_buffer _ _ _ _, past, lt, fun _ _ _ wait => wait.elim⟩
  | lock o pc free record => subst record; exact ⟨rfl, ge, lt, fun _ _ _ wait => wait.elim⟩
  | abortUnlock i pc record => subst record; exact ⟨rfl, ge, lt, fun _ _ _ wait => wait.elim⟩
  | writeWord k ctr i w pc bound record =>
    subst record
    exact ⟨rfl, ge, lt, fun _ _ _ wait => wait.elim⟩
  | unlock k ctr i pc record => subst record; exact ⟨rfl, ge, lt, fun _ _ _ wait => wait.elim⟩
  | finishWb k pc record => subst record; exact ⟨rfl, ge, lt, fun _ _ _ wait => wait.elim⟩
  | commitVersion k pc record =>
    subst record
    exact ⟨rfl, ge, lt, fun _ _ _ wait => wait.elim⟩

theorem actEffect_kept (sound : Sound cfg s) (right : RightSlot s a) (act : ActEffect cfg s a t e)
    {init : Nat → Nat → ω} {l o : Nat} {c : CopyAddr} (le : l ≤ s.gWriterVersion)
    (waited : ∀ k v, (s.thread t).pc = .sync k .reset → (s.thread t).flight = some v → v ≤ l)
    (kept : Kept cfg init s l o c) : Kept cfg init (s.apply t e.1 e.2) l o c := by
  have log := actEffect_log (sound.wf.threads t) right act
  obtain ⟨copy, ctr, slot, ge, lt, waits⟩ := kept
  unfold Kept State.wsObj
  rw [log.valueAt_eq (sound.grace.acquires t) init le, State.apply_thread]
  by_cases eq : c.owner = t
  · subst eq
    obtain ⟨buffer, ge', lt', waits'⟩ := log.kept (sound.wf.threads c.owner)
      (sound.grace.acquires c.owner) le waited ge lt waits
    rw [Function.update_self, ← slot, buffer]
    refine ⟨fun w lt => ?_, ctr, rfl, ge', lt', waits'⟩
    rw [← copy w lt, State.wsObj, slot]
  · rw [Function.update_of_ne eq]
    exact ⟨copy, ctr, slot, ge, lt, waits⟩

end Kept

/-! ### The thread's own locks -/

/-- A committed write set of the thread that waits for write-back has an entry for `o`. -/
def Thread.Pending (th : Thread ω) (o : Nat) : Prop :=
  ∃ ctr i, th.wsWbCounter ≤ ctr ∧ ctr < th.wsTailCounter ∧
    i < (th.objWriteSet (wsIndex ctr)).numOfObjs ∧ (th.entry ctr i).pObjActual = o

/-- Inside a section a thread only adds locks, and its pending write sets stay. -/
theorem LogStep.inSection {cfg : Config} {t : Nat} {s s' : State ω} {th th' : Thread ω}
    (h : ThreadOk cfg t th) (step : LogStep cfg t s s' th th') (odd : th.runCounter % 2 = 1) :
    th'.window = th.window ∧
    (∀ ctr, th.wsHeadCounter ≤ ctr → ctr < th.wsTailCounter →
      th'.objWriteSet (wsIndex ctr) = th.objWriteSet (wsIndex ctr)) ∧
    (∀ slot, (th.objWriteSet slot).numOfObjs ≤ (th'.objWriteSet slot).numOfObjs) ∧
    (∀ slot, ∀ i < (th.objWriteSet slot).numOfObjs, th.pc = .inSection ∨
      ((th'.objWriteSet slot).buffer i).copy = ((th.objWriteSet slot).buffer i).copy) ∧
    ∀ o c, s.hdr o = .copy c → s'.hdr o = .copy c := by
  have control := h.control
  have syncing {p : Prop} {k : Caller} {q : SyncPc} (pc : th.pc = .sync k q) : p := by
    have := h.even_of_sync pc
    omega
  cases step with
  | quiet objects log =>
    exact ⟨log.window, fun _ _ _ => by rw [log.log], fun slot => by rw [log.log],
      fun _ _ _ => .inr (by rw [log.log]), fun o c held => by rwa [objects.hdr]⟩
  | write ws objects window log live actual owned strict none none' waiting grows contents =>
    refine ⟨window, fun ctr ge lt => ?_, fun slot => ?_, fun slot i lt => ?_,
      fun o c held => by rwa [objects.hdr]⟩
    · rw [log, Function.update_of_ne (h.slot_ne strict ge lt)]
    · rw [log]
      by_cases e : slot = th.wsCurId
      · rw [e, Function.update_self]
        exact grows.resolve_left (by omega)
      · rw [Function.update_of_ne e]
    · rw [log]
      by_cases e : slot = th.wsCurId
      · subst e
        rw [Function.update_self]
        exact contents i lt
      · rw [Function.update_of_ne e]
        exact .inr rfl
  | lock o pc free record state =>
    subst record state
    refine ⟨rfl, fun _ _ _ => rfl, fun _ => Nat.le_refl _, fun _ _ _ => .inr rfl,
      fun o' c held => ?_⟩
    have ne : o' ≠ o := fun e => by
      rw [e, free] at held
      cases held
    exact (Function.update_of_ne ne _ _).trans held
  | commit pc' pc =>
    rw [pc] at control
    have even := control.1.1
    omega
  | abortUnlock i pc =>
    have := h.even_of_abort pc
    omega
  | publish k pc => exact syncing pc
  | recycle k pc => exact syncing pc
  | writeWord k ctr i w pc => exact syncing pc
  | unlock k ctr i pc => exact syncing pc
  | finishWb k pc => exact syncing pc
  | commitVersion k pc => exact syncing pc

theorem Thread.pending_congr {th th' : Thread ω} (window : th'.window = th.window)
    (log : ∀ ctr, th.wsWbCounter ≤ ctr → ctr < th.wsTailCounter →
      th'.objWriteSet (wsIndex ctr) = th.objWriteSet (wsIndex ctr)) (o : Nat) :
    th'.Pending o ↔ th.Pending o := by
  obtain ⟨-, wb, tail, -⟩ := Thread.window_eq window
  unfold Thread.Pending Thread.entry
  rw [wb, tail]
  refine exists_congr fun ctr => exists_congr fun i => and_congr_right fun ge =>
    and_congr_right fun lt => ?_
  rw [log ctr ge lt]

/-- The locks of a thread are not touched by the others. -/
theorem LockStep.others_kept [Inhabited ω] {t u : Nat} {s s' : State ω}
    {th' : Thread ω} (inv : LockInv s) (ne : u ≠ t) (step : LockStep u s s' (s.thread u) th')
    {o : Nat} {c : CopyAddr} (own : c.owner = t) (held : s.hdr o = .copy c) :
    s'.hdr o = .copy c := by
  cases step with
  | frame hdr => rwa [hdr]
  | lock idle free hdr =>
    rw [hdr, Function.update_of_ne]
    · exact held
    · rintro rfl
      rw [free] at held
      cases held
  | unlock ctr i live hdr =>
    rw [hdr, Function.update_of_ne]
    · exact held
    · rintro rfl
      rw [inv.installed u ctr i live] at held
      obtain rfl := PObjCopy.copy.inj held
      exact ne own

/-- An object of a pending write set is locked by its thread. -/
theorem Sound.held_of_pending [Inhabited ω] {cfg : Config} {s : State ω} (sound : Sound cfg s)
    {t o : Nat} (odd : (s.thread t).runCounter % 2 = 1) (pending : (s.thread t).Pending o) :
    ∃ c, s.hdr o = .copy c ∧ c.owner = t := by
  obtain ⟨ctr, i, ge, lt, num, rfl⟩ := pending
  have pos := ((sound.wf.threads t).control.inside odd).2.1
  exact ⟨_, sound.locks.installed t ctr i
    ((Thread.live_iff pos ctr i).mpr ⟨ge, .inl ⟨lt, num⟩⟩), rfl⟩

theorem Sound.held_of_current [Inhabited ω] {cfg : Config} {s : State ω} (sound : Sound cfg s)
    {t i : Nat} (pos : (s.thread t).pc.wbPos = fun wb => (wb, 0))
    (active : ¬ (s.thread t).pc.dropped i) (lt : i < (s.thread t).cur.numOfObjs) :
    s.hdr ((s.thread t).cur.buffer i).pObjActual = .copy ⟨t, (s.thread t).wsCurId, i⟩ := by
  have h := sound.wf.threads t
  have live : (s.thread t).Live (s.thread t).wsTailCounter i := by
    rw [Thread.live_iff pos, ← h.curId]
    exact ⟨h.wb_le_tail, .inr ⟨rfl, Nat.lt_add_right _ lt, active⟩⟩
  have installed := sound.locks.installed t _ i live
  rwa [Thread.entry, ← h.curId] at installed

/-- What a section locked, it finds in its current write set. -/
theorem Sound.held_of_hasLocked [Inhabited ω] {cfg : Config} {s : State ω} (sound : Sound cfg s)
    {t o : Nat} (pos : (s.thread t).pc.wbPos = fun wb => (wb, 0))
    (active : ∀ i, ¬ (s.thread t).pc.dropped i) (locked : (s.thread t).hasLocked o = true) :
    ∃ i < (s.thread t).cur.numOfObjs, ((s.thread t).cur.buffer i).pObjActual = o ∧
      s.hdr o = .copy ⟨t, (s.thread t).wsCurId, i⟩ := by
  unfold Thread.hasLocked at locked
  simp only [List.any_eq_true, List.mem_range, beq_iff_eq] at locked
  obtain ⟨i, lt, rfl⟩ := locked
  exact ⟨i, lt, rfl, sound.held_of_current pos (active i) lt⟩

/-! ### What `RLU_DEREF` returns -/

/-- What the result of an `RLU_DEREF` of `o` stays, in a section of thread `r` with version `l`. -/
inductive Deref.Shows (cfg : Config) (init : Nat → Nat → ω) (s : State ω) (r l o : Nat)
    (d : Deref) : Prop
  /-- a copy of the thread's own, current or committed -/
  | own (c : CopyAddr) (result : d.result = .copy c) (mine : c.owner = r)
      (held : s.hdr o = .copy c) (current : d.own = true ↔ c.slot = (s.thread r).wsCurId)
      (counted : c.idx < ((s.thread r).objWriteSet c.slot).numOfObjs)
  | stolen (c : CopyAddr) (result : d.result = .copy c) (other : c.owner ≠ r)
      (notOwn : d.own = false) (free : ¬ (s.thread r).Pending o) (kept : Kept cfg init s l o c)
  | inPlace (result : d.result = .actual o) (notOwn : d.own = false)
      (free : ¬ (s.thread r).Pending o) (young : ∀ c, ¬ OldLock s l o c)

/-- What `RLU_DEREF` knows between its steps about the lock it has seen. -/
def DerefSees (cfg : Config) (init : Nat → Nat → ω) (s : State ω) (r l : Nat) : Pc → Prop
  | .deref (.owner (.actual o) c) =>
    (s.wsObj c).threadId = c.owner ∧ (∀ c', s.hdr o = .copy c' → c'.owner = r → c' = c) ∧
    (c.owner = r → s.hdr o = .copy c) ∧
    ∀ v, (s.thread c.owner).flight = some v → v ≤ l → Kept cfg init s l o c
  | .deref (.version (.actual o) c thId) =>
    thId = c.owner ∧ c.owner ≠ r ∧ (∀ c', s.hdr o = .copy c' → c'.owner ≠ r) ∧
    ∀ v, (s.thread c.owner).flight = some v → v ≤ l → Kept cfg init s l o c
  | _ => True

section Shows
variable [Inhabited ω] {cfg : Config} {s : State ω} {a : Act ω} {t : Nat} {e : Effect ω}
  {init : Nat → Nat → ω}

/-- A sync past its wait has no older section beside it. -/
theorem Sound.waited_le (sound : Sound cfg s) {r l : Nat}
    (version : (s.thread r).sectionVersion = some l) (k : Caller) (v : Nat)
    (pc : (s.thread t).pc = .sync k .reset) (flight : (s.thread t).flight = some v) : v ≤ l := by
  have ne : r ≠ t := by
    rintro rfl
    have odd := (sound.wf.threads r).odd_of_version version
    have := (sound.wf.threads r).even_of_sync pc
    omega
  exact sound.grace.le_of_waited ne flight version (by rw [pc]; exact id)

/-- What a result stays, it stays over every step of the section. -/
theorem actEffect_shows (sound : Sound cfg s) (right : RightSlot s a) (act : ActEffect cfg s a t e)
    {r l o : Nat} {d : Deref} (before : (s.thread r).sectionVersion = some l)
    (after : ((s.apply t e.1 e.2).thread r).sectionVersion = some l)
    (shown : d.Shows cfg init s r l o) : d.Shows cfg init (s.apply t e.1 e.2) r l o := by
  have h := sound.wf.threads t
  have log := actEffect_log h right act
  have le := actEffect_version_le sound.wf sound.grace act after
  have odd := (sound.wf.threads r).odd_of_version before
  have record : ((s.apply t e.1 e.2).thread r).wsCurId = (s.thread r).wsCurId ∧
      (∀ o, ((s.apply t e.1 e.2).thread r).Pending o ↔ (s.thread r).Pending o) ∧
      (∀ slot, ((s.thread r).objWriteSet slot).numOfObjs ≤
        (((s.apply t e.1 e.2).thread r).objWriteSet slot).numOfObjs) ∧
      ∀ o c, s.hdr o = .copy c → c.owner = r → (s.apply t e.1 e.2).hdr o = .copy c := by
    rw [State.apply_thread]
    by_cases eq : r = t
    · subst eq
      obtain ⟨window, pending, grows, -, hdr⟩ := log.inSection h odd
      rw [Function.update_self]
      exact ⟨(Thread.window_eq window).2.2.2, Thread.pending_congr window
        (fun ctr ge lt => pending ctr (Nat.le_trans h.head_le_wb ge) lt), grows,
        fun o c held _ => hdr o c held⟩
    · rw [Function.update_of_ne eq]
      exact ⟨rfl, fun _ => Iff.rfl, fun _ => Nat.le_refl _, fun o c held own =>
        (log.lockStep h).others_kept sound.locks (Ne.symm eq) own held⟩
  obtain ⟨curId, pending, grows, hdr⟩ := record
  cases shown with
  | own c result mine held current counted =>
    exact .own c result mine (hdr o c held mine) (by rw [curId]; exact current)
      (Nat.lt_of_lt_of_le counted (grows c.slot))
  | stolen c result other notOwn free kept =>
    exact .stolen c result other notOwn (fun p => free ((pending o).mp p))
      (actEffect_kept sound right act le (sound.waited_le before) kept)
  | inPlace result notOwn free young =>
    exact .inPlace result notOwn (fun p => free ((pending o).mp p))
      fun c old => young c (actEffect_oldLock sound.wf sound.grace right act le old)

/-- What `RLU_DEREF` has seen stays when the section's own locks stay. -/
theorem actEffect_sees (sound : Sound cfg s) (right : RightSlot s a) (act : ActEffect cfg s a t e)
    {r l : Nat} (before : (s.thread r).sectionVersion = some l)
    (own : ∀ o c, c.owner = r → ((s.apply t e.1 e.2).hdr o = .copy c ↔ s.hdr o = .copy c)) {pc : Pc}
    (sees : DerefSees cfg init s r l pc) : DerefSees cfg init (s.apply t e.1 e.2) r l pc := by
  have log := actEffect_log (sound.wf.threads t) right act
  have le := (sound.grace.section_le r l before).2
  have kept {o : Nat} {c : CopyAddr}
      (kept : ∀ v, (s.thread c.owner).flight = some v → v ≤ l → Kept cfg init s l o c) (v : Nat)
      (flight : ((s.apply t e.1 e.2).thread c.owner).flight = some v) (le' : v ≤ l) :
      Kept cfg init (s.apply t e.1 e.2) l o c := by
    rcases actEffect_flight sound.wf sound.grace right act flight with old | new
    · exact actEffect_kept sound right act le (sound.waited_le before) (kept v old le')
    · omega
  have sticky (c : CopyAddr) (id : (s.wsObj c).threadId = c.owner) :
      ((s.apply t e.1 e.2).wsObj c).threadId = c.owner := by
    unfold State.wsObj
    rw [State.apply_thread]
    by_cases eq : c.owner = t
    · subst eq
      rw [Function.update_self]
      rcases (log.owned c.slot c.idx).1 with mine | same
      · exact mine
      · exact same.trans id
    · rw [Function.update_of_ne eq]
      exact id
  unfold DerefSees at sees ⊢
  split at sees
  · obtain ⟨id, unique, held, keeps⟩ := sees
    exact ⟨sticky _ id, fun c' held' mine => unique c' ((own _ c' mine).mp held') mine,
      fun mine => (own _ _ mine).mpr (held mine), kept keeps⟩
  · obtain ⟨id, other, free, keeps⟩ := sees
    exact ⟨id, other, fun c' held mine => free c' ((own _ c' mine).mp held) mine, kept keeps⟩
  · trivial

theorem deref_sees (sound : Sound cfg s) {l : Nat} (view : View cfg init s l) {q q' : DerefPc}
    (hpc : (s.thread t).pc = .deref q) (sees : DerefSees cfg init s t l (.deref q))
    (next : (derefStep s t (s.thread t) q).1.pc = .deref q') :
    DerefSees cfg init s t l (.deref q') := by
  cases q with
  | header p =>
    simp only [derefStep] at next
    split_ifs at next
    · cases next
    · cases next
      trivial
  | slow p =>
    simp only [derefStep] at next
    split at next
    · cases next
    · cases next
    · rename_i c held
      cases next
      cases p with
      | actual o =>
        have held : s.hdr o = .copy c := held
        exact ⟨(sound.locks.copy_of_held sound.wf held).1,
          fun c' held' _ => PObjCopy.copy.inj (held'.symm.trans held), fun _ => held,
          fun v flight le => OldLock.kept sound view ⟨held, v, flight, le⟩⟩
      | null | copy => trivial
  | owner p c =>
    simp only [derefStep] at next
    split_ifs at next with mine
    · cases next
    · cases next
      cases p with
      | actual o =>
        obtain ⟨id, unique, own, keeps⟩ := sees
        have other : c.owner ≠ t := fun e => mine (id.trans e)
        refine ⟨id, other, fun c' held mine' => ?_, keeps⟩
        obtain rfl := unique c' held mine'
        exact other mine'
      | null | copy => trivial
    · cases next
  | version p c thId =>
    simp only [derefStep] at next
    split at next
    · split_ifs at next <;> cases next
    · cases next

/-- A section that does not hold `o` sees no entry of its own for it. -/
theorem Sound.free_of_not_held (sound : Sound cfg s) {o : Nat}
    (odd : (s.thread t).runCounter % 2 = 1) (active : ∀ i, ¬ (s.thread t).pc.dropped i)
    (free : ∀ c, s.hdr o = .copy c → c.owner ≠ t) :
    (s.thread t).hasLocked o = false ∧ ¬ (s.thread t).Pending o := by
  have pos := ((sound.wf.threads t).control.inside odd).2.1
  constructor
  · by_contra locked
    obtain ⟨i, -, -, held⟩ := sound.held_of_hasLocked pos active (by simpa using locked)
    exact free _ held rfl
  · intro pending
    obtain ⟨c, held, own⟩ := sound.held_of_pending odd pending
    exact free c held own

/-- A copy of the section's own is in its current write set or in a pending one. -/
theorem Sound.own_of_held (sound : Sound cfg s) {o : Nat} {c : CopyAddr}
    (strict : (s.thread t).wsTailCounter < (s.thread t).wsWbCounter + cfg.maxWriteSets)
    (pos : (s.thread t).pc.wbPos = fun wb => (wb, 0)) (extra : (s.thread t).pc.extra = 0)
    (active : ∀ i, ¬ (s.thread t).pc.dropped i) (held : s.hdr o = .copy c) (own : c.owner = t) :
    c.idx < ((s.thread t).objWriteSet c.slot).numOfObjs ∧
    ((s.thread t).hasLocked o = true ↔ c.slot = (s.thread t).wsCurId) := by
  have h := sound.wf.threads t
  obtain ⟨ctr, live, slot, actual⟩ := sound.locks.logged o c held
  rw [own] at live actual
  rw [Thread.live_iff pos, extra] at live
  constructor
  · rw [← slot]
    rcases live.2 with ⟨-, num⟩ | ⟨-, num, -⟩ <;> exact num
  constructor
  · intro locked
    obtain ⟨i, -, -, held'⟩ := sound.held_of_hasLocked pos active locked
    obtain rfl := PObjCopy.copy.inj (held.symm.trans held')
    rfl
  · intro current
    obtain ⟨ge, ⟨lt, -⟩ | ⟨rfl, num, -⟩⟩ := live
    · exact absurd (slot.trans current) (h.slot_ne strict (Nat.le_trans h.head_le_wb ge) lt)
    · unfold Thread.hasLocked
      simp only [List.any_eq_true, List.mem_range, beq_iff_eq]
      refine ⟨c.idx, ?_, ?_⟩
      · rw [Thread.cur, h.curId]
        exact num
      · rw [Thread.cur, h.curId]
        exact actual

/-- A thread that shows a version of the past has it in flight. -/
theorem Sound.flight_of_shown (sound : Sound cfg s) {u v l : Nat} (le : l ≤ s.gWriterVersion)
    (shown : (s.thread u).writerVersion = some v) (old : v ≤ l) :
    (s.thread u).flight = some v := by
  have h := sound.wf.threads u
  cases flight : (s.thread u).flight with
  | none =>
    obtain ⟨k, pc⟩ := h.control.fetching flight shown
    have acquires := sound.grace.acquires u
    unfold Thread.Acquires at acquires
    rw [pc] at acquires
    obtain rfl := Option.some.inj (acquires.symm.trans shown)
    omega
  | some v' =>
    rcases (h.control.inFlight flight).2 with shown' | ⟨hidden, -⟩
    · exact shown'.symm.trans shown
    · rw [hidden] at shown
      cases shown

theorem deref_shows (sound : Sound cfg s) (reading : Reading s) {o l : Nat} {q : DerefPc} {r : Ptr}
    (version : (s.thread t).sectionVersion = some l) (hpc : (s.thread t).pc = .deref q)
    (sees : DerefSees cfg init s t l (.deref q))
    (returns : derefStep s t (s.thread t) q = derefReturn (s.thread t) (.actual o) r) :
    Deref.Shows cfg init s t l o ⟨.actual o, r, (s.thread t).hasLocked o⟩ := by
  have odd := (sound.wf.threads t).odd_of_version version
  have active (i : Nat) : ¬ (s.thread t).pc.dropped i := by rw [hpc]; exact id
  have young (inPlace : r = .actual o) (c : CopyAddr) : ¬ OldLock s l o c := by
    subst inPlace
    exact deref_actual sound.wf sound.locks reading version hpc returns c
  have inPlace (e : r = .actual o) (free : ∀ c, s.hdr o = .copy c → c.owner ≠ t) :
      Deref.Shows cfg init s t l o ⟨.actual o, r, (s.thread t).hasLocked o⟩ := by
    obtain ⟨notOwn, free⟩ := sound.free_of_not_held odd active free
    exact .inPlace e notOwn free (young e)
  cases q with
  | header p =>
    simp only [derefStep] at returns
    split_ifs at returns with free
    · obtain ⟨rfl, e⟩ := derefReturn_inj returns
      refine inPlace e.symm fun c held => ?_
      rw [State.getCopy, held] at free
      cases free
    · cases congrArg (fun e => e.1.pc) returns
  | slow p =>
    simp only [derefStep] at returns
    split at returns
    · rename_i free
      obtain ⟨rfl, e⟩ := derefReturn_inj returns
      refine inPlace e.symm fun c held => ?_
      rw [State.getCopy, held] at free
      cases free
    · rename_i free
      obtain ⟨rfl, e⟩ := derefReturn_inj returns
      exact absurd free (sound.locks.unmarked o)
    · cases congrArg (fun e => e.1.pc) returns
  | owner p c =>
    simp only [derefStep] at returns
    split_ifs at returns with mine steal
    · obtain ⟨rfl, rfl⟩ := derefReturn_inj returns
      obtain ⟨id, unique, own, keeps⟩ := sees
      have mine' : c.owner = t := id.symm.trans mine
      obtain ⟨counted, current⟩ := sound.own_of_held
        ((sound.wf.threads t).control.inside odd).1.2.1 (by rw [hpc]; rfl) (by rw [hpc]; rfl) active
        (own mine') mine'
      exact .own c rfl mine' (own mine') current counted
    · cases congrArg (fun e => e.1.pc) returns
    · obtain ⟨rfl, e⟩ := derefReturn_inj returns
      obtain ⟨id, unique, own, keeps⟩ := sees
      refine inPlace e.symm fun c' held mine' => ?_
      obtain rfl := unique c' held mine'
      exact mine (id.trans mine')
  | version p c thId =>
    simp only [derefStep] at returns
    split at returns
    · rename_i v shown
      split_ifs at returns with le
      · obtain ⟨rfl, rfl⟩ := derefReturn_inj returns
        obtain ⟨rfl, other, free, keeps⟩ := sees
        obtain ⟨notOwn, pending⟩ := sound.free_of_not_held odd active free
        have local_eq := localVersion_of_version version (by rw [hpc]; rintro ⟨⟩)
        have flight := sound.flight_of_shown (sound.grace.section_le t l version).2 shown
          (local_eq ▸ le)
        exact .stolen c rfl other notOwn pending (keeps _ flight (local_eq ▸ le))
      · obtain ⟨rfl, e⟩ := derefReturn_inj returns
        exact inPlace e.symm sees.2.2.1
    · obtain ⟨rfl, e⟩ := derefReturn_inj returns
      exact inPlace e.symm sees.2.2.1

end Shows

/-! ### The invariant -/

structure Snapshots (cfg : Config) (init : Nat → Nat → ω) (s : State ω) : Prop where
  versions : ∀ p ∈ s.published, p.version ≤ s.gWriterVersion
  written : ∀ t, Written cfg s (s.thread t)
  latest : View cfg init s s.gWriterVersion
  views : ∀ r l, (s.thread r).sectionVersion = some l → View cfg init s l
  sees : ∀ r l, (s.thread r).sectionVersion = some l → DerefSees cfg init s r l (s.thread r).pc
  shown : ∀ r l, (s.thread r).sectionVersion = some l → ∀ d ∈ (s.thread r).derefs,
    ∀ o, d.arg = .actual o → d.Shows cfg init s r l o

section Preserve
variable [Inhabited ω] {cfg : Config} {s : State ω} {init : Nat → Nat → ω}

theorem init_snapshots (cfg : Config) (init : Nat → Nat → ω) :
    Snapshots cfg init (State.init init) := by
  have none (r : Nat) {l : Nat} : ¬ ((State.init init).thread r).sectionVersion = some l := by
    unfold Thread.sectionVersion
    nofun
  exact {
    versions := nofun
    written := fun _ => trivial
    latest := ⟨fun _ _ old => (by cases old.1), fun _ _ _ _ => rfl⟩
    views := fun r _ e => absurd e (none r)
    sees := fun r _ e => absurd e (none r)
    shown := fun r _ e => absurd e (none r) }

section Effect
variable {a : Act ω} {t : Nat} {e : Effect ω}

theorem actEffect_versions (sound : Sound cfg s) (right : RightSlot s a)
    (act : ActEffect cfg s a t e) (versions : ∀ p ∈ s.published, p.version ≤ s.gWriterVersion) :
    ∀ p ∈ (s.apply t e.1 e.2).published, p.version ≤ (s.apply t e.1 e.2).gWriterVersion := by
  intro p mem
  rcases (actEffect_log (sound.wf.threads t) right act).published (sound.grace.acquires t) with
    ⟨published, writer⟩ | ⟨published, writer⟩
  · rw [published] at mem
    rw [writer]
    exact versions p mem
  · rw [published] at mem
    rw [writer]
    rcases List.mem_cons.mp mem with rfl | mem
    · exact Nat.le_refl _
    · exact Nat.le_succ_of_le (versions p mem)

theorem actEffect_views (sound : Sound cfg s) (snap : Snapshots cfg init s) (right : RightSlot s a)
    (act : ActEffect cfg s a t e) {r l : Nat}
    (here : ((s.apply t e.1 e.2).thread r).sectionVersion = some l) :
    View cfg init (s.apply t e.1 e.2) l := by
  have le := actEffect_version_le sound.wf sound.grace act here
  rw [State.apply_thread] at here
  by_cases eq : r = t
  · subst eq
    rw [Function.update_self] at here
    have idle (k : Caller) (ctr i x v : Nat) (pc : (s.thread r).pc = .sync k (.copy ctr i x))
        (_ : (s.thread r).flight = some v) : v ≤ l :=
      absurd here (not_version_of_sync sound.wf right act pc)
    rcases (actEffect_section (sound.wf.threads r) act).version (sound.wf.threads r) with
      ⟨none, -⟩ | ⟨loaded, -, -⟩ | ⟨kept, -, -⟩
    · rw [none] at here
      cases here
    · obtain rfl := Option.some.inj (loaded.symm.trans here)
      exact actEffect_view sound snap.written right act le idle snap.latest
    · exact actEffect_view sound snap.written right act le idle
        (snap.views r l (kept.symm.trans here))
  · rw [Function.update_of_ne eq] at here
    refine actEffect_view sound snap.written right act le (fun k ctr i x v pc flight => ?_)
      (snap.views r l here)
    exact sound.grace.le_of_waited eq flight here (by rw [pc]; exact id)

omit [Inhabited ω] in
theorem derefStep_write (q : DerefPc) : (derefStep s t (s.thread t) q).2 = .none := by
  cases q <;> simp only [derefStep] <;> (repeat' split) <;> rfl

theorem actEffect_snap_sees (sound : Sound cfg s) (snap : Snapshots cfg init s)
    (right : RightSlot s a) (act : ActEffect cfg s a t e) {r l : Nat}
    (here : ((s.apply t e.1 e.2).thread r).sectionVersion = some l) :
    DerefSees cfg init (s.apply t e.1 e.2) r l ((s.apply t e.1 e.2).thread r).pc := by
  rw [State.apply_thread] at here ⊢
  by_cases eq : r = t
  · subst eq
    rw [Function.update_self] at here ⊢
    cases hpc : e.1.pc with
    | deref q =>
      rcases actEffect_deref act hpc with ⟨p, rfl⟩ | ⟨q', from_, effect⟩
      · trivial
      · have before := actEffect_deref_version sound.wf act from_ here
        have quiet : e.2 = .none := by rw [effect, derefStep_write]
        refine actEffect_sees sound right act before (fun o c _ => by rw [quiet]; exact Iff.rfl) ?_
        exact deref_sees sound (snap.views r l before) from_ (from_ ▸ snap.sees r l before)
          (effect ▸ hpc)
    | _ => trivial
  · rw [Function.update_of_ne eq] at here ⊢
    have step := (actEffect_log (sound.wf.threads t) right act).lockStep (sound.wf.threads t)
    exact actEffect_sees sound right act here (fun o c own =>
      ⟨step.own_kept (Ne.symm eq) own, step.others_kept sound.locks (Ne.symm eq) own⟩)
      (snap.sees r l here)

/-- Every result of the running section shows what the section has to see. -/
theorem actEffect_shown (sound : Sound cfg s) (reading : Reading s) (snap : Snapshots cfg init s)
    (right : RightSlot s a) (act : ActEffect cfg s a t e) {l : Nat}
    (here : e.1.sectionVersion = some l) : e.1.derefs = [] ∨
    (s.thread t).sectionVersion = some l ∧ ∀ d ∈ e.1.derefs, ∀ o, d.arg = .actual o →
      d.Shows cfg init s t l o := by
  rcases actEffect_derefs sound.wf reading right act here with empty | ⟨before, notLocking, from_⟩
  · exact .inl empty
  refine .inr ⟨before, fun d mem o arg => ?_⟩
  rcases from_ with same | ⟨p, r, rfl, source⟩
  · rw [same] at mem
    exact snap.shown t l before d mem o arg
  · rcases List.mem_cons.mp mem with rfl | mem
    · obtain rfl : p = .actual o := arg
      rcases source with ⟨pc, fast | none, rfl⟩ | ⟨q, pc, returns⟩
      · -- the fast path: the section holds no lock and nothing older is in flight
        have odd := (sound.wf.threads t).odd_of_version before
        obtain ⟨notOwn, free⟩ := sound.free_of_not_held (o := o) odd (by rw [pc]; exact fun _ => id)
          fun c held own => by
            obtain ⟨ctr, live, -⟩ := sound.locks.logged o c held
            rw [own] at live
            exact (sound.wf.threads t).not_live_of_unchecked odd fast ctr c.idx live
        exact .inPlace rfl notOwn free
          ((reading.flags t l before notLocking (.inr fast)).not_oldLock o)
      · cases none
      · exact deref_shows sound reading before pc (pc ▸ snap.sees t l before) returns
    · exact snap.shown t l before d mem o arg

theorem step_snapshots {s' : State ω} (sound : Sound cfg s) (reading : Reading s)
    (snap : Snapshots cfg init s) (right : RightSlot s a) (hs : step cfg s a = some s') :
    Snapshots cfg init s' := by
  rcases step_cases hs with ⟨rfl, rfl⟩ | ⟨t, e, -, act, rfl⟩
  · rw [sound.wf.threadInit]
    refine ⟨snap.versions, snap.written, ⟨snap.latest.locked, snap.latest.inPlace⟩,
      fun r l e => ⟨(snap.views r l e).locked, (snap.views r l e).inPlace⟩, snap.sees,
      fun r l e d mem o arg => ?_⟩
    cases snap.shown r l e d mem o arg with
    | own c result mine held current counted => exact .own c result mine held current counted
    | stolen c result other notOwn free kept => exact .stolen c result other notOwn free kept
    | inPlace result notOwn free young => exact .inPlace result notOwn free young
  · refine ⟨actEffect_versions sound right act snap.versions,
      actEffect_written sound.wf sound.locks right snap.written act,
      actEffect_latest sound snap.written right act snap.versions snap.latest,
      fun r l => actEffect_views sound snap right act,
      fun r l => actEffect_snap_sees sound snap right act, fun r l after d mem o arg => ?_⟩
    by_cases eq : r = t
    · subst eq
      have here := after
      rw [State.apply_thread, Function.update_self] at here mem
      rcases actEffect_shown sound reading snap right act here with empty | ⟨before, shown⟩
      · rw [empty] at mem
        cases mem
      · exact actEffect_shows sound right act before after (shown d mem o arg)
    · have here := after
      rw [State.apply_thread, Function.update_of_ne eq] at here mem
      exact actEffect_shows sound right act here after (snap.shown r l here d mem o arg)

end Effect

end Preserve

abbrev ReachableFrom [Inhabited ω] (cfg : Config) (init : Nat → Nat → ω)
    (ok : State ω → Act ω → Prop) : State ω → Prop :=
  System.Reachable (fun s => s = State.init init) (step cfg) ok

theorem ReachableFrom.reachable [Inhabited ω] {cfg : Config} {init : Nat → Nat → ω}
    {ok : State ω → Act ω → Prop} {s : State ω} (h : ReachableFrom cfg init ok s) :
    System.Reachable Init (step cfg) ok s :=
  h.mono_init fun _ e => ⟨init, e⟩

theorem reachable_snapshots [Inhabited ω] {cfg : Config} {init : Nat → Nat → ω}
    {ok : State ω → Act ω → Prop} (orderly : ∀ s a, ok s a → Orderly s a) {s : State ω}
    (h : ReachableFrom cfg init ok s) : Snapshots cfg init s :=
  System.Reachable.invariant_of (Snapshots cfg init)
    (fun _ h => And.intro (reachable_sound orderly (ReachableFrom.reachable h))
      (reachable_reading orderly (ReachableFrom.reachable h)))
    (by rintro _ rfl; exact init_snapshots cfg init)
    (fun s a _ known _ snap hok hs =>
      step_snapshots known.1 known.2 snap (orderly s a hok).1 hs) h

end ReadLogUpdate
