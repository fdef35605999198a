import ReadLogUpdate.Rlu.Isolation
import ReadLogUpdate.Rlu.LifeCycle
import ReadLogUpdate.Rlu.WriterLocks

/-!
# Conflicts between sections

A section locks an object only while nobody has published a newer value of it: the write sets that
are newer than a running section wait for it with their locks, so a lock that succeeds finds in
place what the section itself sees. No section commits over a value that it did not read.
-/

namespace ReadLogUpdate

variable {ω : Type}

/-- The write sets published after `l` still lock their objects. -/
def Pinned (s : State ω) (l : Nat) : Prop :=
  ∀ p ∈ s.published, l < p.version → ∀ e ∈ p.objs, ∃ c,
    s.hdr e.1 = .copy c ∧ (s.thread c.owner).flight = some p.version

/-- The words that `rlu_add_obj_copy_to_write_set` has copied so far. -/
def Copied (cfg : Config) (s : State ω) (th : Thread ω) : Prop :=
  match th.pc with
  | .tryLock (.copy o x) => ∀ w < x, w < cfg.objWords →
      (th.cur.buffer th.cur.numOfObjs).copy w = s.obj o w
  | .tryLock (.check o) => ∀ w < cfg.objWords,
      (th.cur.buffer (th.cur.numOfObjs - 1)).copy w = s.obj o w
  | _ => True

section Step
variable [Inhabited ω] {cfg : Config} {s : State ω} {a : Act ω} {t : Nat} {e : Effect ω}

/-- A sync ends its write-back beside sections that are at least as new. -/
theorem actEffect_pinned (sound : Sound cfg s) (right : RightSlot s a) (act : ActEffect cfg s a t e)
    {l : Nat} (waited : ∀ k v, (∃ ctr i, (s.thread t).pc = .sync k (.unlock ctr i)) ∨
      (s.thread t).pc = .sync k .commitAdd → (s.thread t).flight = some v → v ≤ l)
    (pinned : Pinned s l) : Pinned (s.apply t e.1 e.2) l := by
  have h := sound.wf.threads t
  have log := actEffect_log h right act
  have self : (s.apply t e.1 e.2).thread t = e.1 := by
    rw [State.apply_thread, Function.update_self]
  -- the versions in flight stay, but for that of the thread that steps
  have flights {u v : Nat} (flight : (s.thread u).flight = some v)
      (own : (s.thread t).flight = some v → e.1.flight = some v) :
      ((s.apply t e.1 e.2).thread u).flight = some v := by
    by_cases eq : u = t
    · subst eq
      rw [self]
      exact own flight
    · rw [State.apply_thread, Function.update_of_ne eq]
      exact flight
  have same (published : (s.apply t e.1 e.2).published = s.published)
      (flight : ∀ v, l < v → (s.thread t).flight = some v → e.1.flight = some v)
      (hdr : ∀ o c v, l < v → s.hdr o = .copy c → (s.thread c.owner).flight = some v →
        (s.apply t e.1 e.2).hdr o = .copy c) : Pinned (s.apply t e.1 e.2) l := by
    intro p mem newer e' mem'
    rw [published] at mem
    obtain ⟨c, held, shown⟩ := pinned p mem newer e' mem'
    exact ⟨c, hdr e'.1 c _ newer held shown, flights shown (flight _ newer)⟩
  -- an object that the thread unlocks
  have unlocked {o o' : Nat} {c c' : CopyAddr} {v : Nat} (held : s.hdr o = .copy c)
      (shown : (s.thread c.owner).flight = some v) (held' : s.hdr o' = .copy c')
      (own : c'.owner = t) (idle : (s.thread t).flight ≠ some v)
      (hdr : (s.apply t e.1 e.2).hdr = Function.update s.hdr o' .null) :
      (s.apply t e.1 e.2).hdr o = .copy c := by
    rw [hdr, Function.update_of_ne]
    · exact held
    · rintro rfl
      obtain rfl := PObjCopy.copy.inj (held.symm.trans held')
      rw [own] at shown
      exact idle shown
  cases log with
  | quiet objects log flight =>
    exact same objects.published (fun v _ shown => flight.trans shown)
      fun o c v _ held _ => by rwa [objects.hdr]
  | write ws objects window log live actual owned strict none =>
    refine same objects.published (fun v _ shown => ?_) fun o c v _ held _ => by rwa [objects.hdr]
    rw [none] at shown
    cases shown
  | publish k pc record state =>
    have control := h.control
    rw [pc] at control
    have acquires := sound.grace.acquires t
    unfold Thread.Acquires at acquires
    rw [pc] at acquires
    have published : (s.apply t e.1 e.2).published =
        ⟨s.gWriterVersion + 1, (s.thread t).pendingObjs⟩ :: s.published := by
      rw [state]
      show Publication.mk ((e.1.flight).getD 0) e.1.pendingObjs :: _ = _
      rw [record]
      show Publication.mk ((s.thread t).writerVersion.getD 0) _ :: _ = _
      rw [acquires]
      rfl
    have drawn : e.1.flight = some (s.gWriterVersion + 1) := by
      rw [record]
      exact acquires
    intro p mem newer e' mem'
    rw [published] at mem
    rcases List.mem_cons.mp mem with rfl | mem
    · -- the objects of the new write set are those that the thread has locked
      obtain ⟨ctr, i, ge, lt, num, rfl⟩ := Thread.mem_pendingObjs.mp mem'
      have live : (s.thread t).Live ctr i :=
        (Thread.live_iff (by rw [pc]; rfl) ctr i).mpr ⟨ge, .inl ⟨lt, num⟩⟩
      refine ⟨⟨t, wsIndex ctr, i⟩, ?_, ?_⟩
      · rw [state]
        exact sound.locks.installed t ctr i live
      · rw [self]
        exact drawn
    · obtain ⟨c, held, shown⟩ := pinned p mem newer e' mem'
      refine ⟨c, by rw [state]; exact held, flights shown fun idle => ?_⟩
      rw [control.2.1] at idle
      cases idle
  | lock o pc free record state =>
    refine same (by rw [state]; rfl) (fun v _ shown => by rw [record]; exact shown)
      fun o' c v _ held _ => ?_
    rw [state]
    refine (Function.update_of_ne ?_ _ _).trans held
    rintro rfl
    rw [free] at held
    cases held
  | commit pc' pc detected next record state =>
    exact same (by rw [state]; rfl) (fun v _ shown => by rw [record]; exact shown)
      fun o c v _ held _ => by rw [state]; exact held
  | abortUnlock i pc record state =>
    obtain ⟨outside, -, lt⟩ : (s.thread t).Outside cfg ∧
        (s.thread t).wsCurId = (s.thread t).wsCurId ∧ i < (s.thread t).cur.numOfObjs := by
      simpa [pc, Control] using h.control
    have live : (s.thread t).Live (s.thread t).wsTailCounter i := by
      rw [Thread.live_iff (by rw [pc]; rfl), pc, ← h.curId]
      exact ⟨h.wb_le_tail, .inr ⟨rfl, lt, Nat.lt_irrefl i⟩⟩
    have held' := sound.locks.installed t _ i live
    refine same (by rw [state]; rfl) (fun v _ shown => by rw [record]; exact shown)
      fun o c v _ held shown => ?_
    refine unlocked held shown held' rfl (by rw [outside.2.2.1]; simp) ?_
    rw [state, Thread.entry, ← h.curId]
    rfl
  | recycle k pc record state =>
    exact same (by rw [state]; rfl) (fun v _ shown => by rw [record]; exact shown)
      fun o c v _ held _ => by rw [state]; exact held
  | writeWord k ctr i w pc bound record state =>
    exact same (by rw [state]; rfl) (fun v _ shown => by rw [record]; exact shown)
      fun o c v _ held _ => by rw [state]; exact held
  | unlock k ctr i pc record state =>
    have held' := sound.locks.installed t ctr i (h.live_of_written (.inr (.inr pc)))
    refine same (by rw [state]; rfl) (fun v _ shown => by rw [record]; exact shown)
      fun o c v newer held shown => ?_
    refine unlocked held shown held' rfl (fun flight => ?_) (by rw [state]; rfl)
    exact absurd (waited k v (.inl ⟨ctr, i, pc⟩) flight) (Nat.not_le_of_lt newer)
  | finishWb k pc record state =>
    exact same (by rw [state]; rfl) (fun v _ shown => by rw [record]; exact shown)
      fun o c v _ held _ => by rw [state]; exact held
  | commitVersion k pc record state =>
    refine same (by rw [state]; rfl) (fun v newer shown => ?_)
      fun o c v _ held _ => by rw [state]; exact held
    exact absurd (waited k v (.inr pc) shown) (Nat.not_le_of_lt newer)

theorem actEffect_pins {init : Nat → Nat → ω} (sound : Sound cfg s) (snap : Snapshots cfg init s)
    (right : RightSlot s a) (act : ActEffect cfg s a t e)
    (pins : ∀ r l, (s.thread r).sectionVersion = some l → Pinned s l) {r l : Nat}
    (here : ((s.apply t e.1 e.2).thread r).sectionVersion = some l) :
    Pinned (s.apply t e.1 e.2) l := by
  rw [State.apply_thread] at here
  by_cases eq : r = t
  · subst eq
    rw [Function.update_self] at here
    have syncing {k : Caller} {q : SyncPc} (pc : (s.thread r).pc = .sync k q) {p : Prop} : p :=
      absurd here (not_version_of_sync sound.wf right act pc)
    have waited (k : Caller) (v : Nat) (pc : (∃ ctr i, (s.thread r).pc = .sync k (.unlock ctr i)) ∨
        (s.thread r).pc = .sync k .commitAdd) (_ : (s.thread r).flight = some v) : v ≤ l := by
      rcases pc with ⟨ctr, i, pc⟩ | pc <;> exact syncing pc
    refine actEffect_pinned sound right act waited ?_
    rcases (actEffect_section (sound.wf.threads r) act).version (sound.wf.threads r) with
      ⟨none, -⟩ | ⟨loaded, -, -⟩ | ⟨kept, -, -⟩
    · rw [none] at here
      cases here
    · obtain rfl := Option.some.inj (loaded.symm.trans here)
      exact fun p mem newer => absurd (snap.versions p mem) (Nat.not_le_of_lt newer)
    · exact pins r l (kept.symm.trans here)
  · rw [Function.update_of_ne eq] at here
    refine actEffect_pinned sound right act (fun k v pc flight => ?_) (pins r l here)
    refine sound.grace.le_of_waited eq flight here ?_
    rcases pc with ⟨ctr, i, pc⟩ | pc <;> rw [pc] <;> exact id

/-! ### The copy of an object -/

omit [Inhabited ω] in
theorem ThreadOk.live_of_copied {t : Nat} {th : Thread ω} (h : ThreadOk cfg t th) {o : Nat} :
    (∀ x, th.pc = .tryLock (.copy o x) → th.Live th.wsTailCounter th.cur.numOfObjs ∧
      (th.entry th.wsTailCounter th.cur.numOfObjs).pObjActual = o) ∧
    (th.pc = .tryLock (.check o) → th.Live th.wsTailCounter (th.cur.numOfObjs - 1) ∧
      (th.entry th.wsTailCounter (th.cur.numOfObjs - 1)).pObjActual = o) := by
  have control := h.control
  have entry (i : Nat) : th.entry th.wsTailCounter i = th.cur.buffer i := by
    rw [Thread.entry, Thread.cur, h.curId]
  have num : (th.objWriteSet (wsIndex th.wsTailCounter)).numOfObjs = th.cur.numOfObjs := by
    rw [Thread.cur, h.curId]
  refine ⟨fun x pc => ?_, fun pc => ?_⟩
  · rw [pc] at control
    refine ⟨?_, by rw [entry]; exact control.2.2.1⟩
    rw [Thread.live_iff (by rw [pc]; rfl), pc, num]
    exact ⟨h.wb_le_tail, .inr ⟨rfl, Nat.lt_succ_self _, id⟩⟩
  · rw [pc] at control
    obtain ⟨-, pos, actual, -⟩ := control
    refine ⟨?_, by rw [entry]; exact actual⟩
    rw [Thread.live_iff (by rw [pc]; rfl), pc, num]
    exact ⟨h.wb_le_tail, .inr ⟨rfl, Nat.sub_lt pos Nat.one_pos, id⟩⟩

/-- An object that a thread has locked is not written by the others. -/
theorem actEffect_obj_of_live (sound : Sound cfg s) (right : RightSlot s a)
    (act : ActEffect cfg s a t e) {u ctr i : Nat} (ne : u ≠ t) (live : (s.thread u).Live ctr i) :
    (s.apply t e.1 e.2).obj ((s.thread u).entry ctr i).pObjActual =
      s.obj ((s.thread u).entry ctr i).pObjActual := by
  rcases (actEffect_log (sound.wf.threads t) right act).obj (sound.wf.threads t) with
    same | ⟨k, c, j, w, -, live', -, -, obj⟩
  · rw [same]
  · rw [obj]
    exact Function.update_of_ne (fun e => ne (sound.locks.entry_inj sound.wf live live' e).1) _ _

omit [Inhabited ω] in
theorem tryLockStep_copied {pc : TryLockPc}
    (hpc : (s.thread t).pc = .tryLock pc) (copied : Copied cfg s (s.thread t)) :
    Copied cfg (s.apply t (tryLockStep cfg s t (s.thread t) pc).1 (tryLockStep cfg s t (s.thread t) pc).2)
      (tryLockStep cfg s t (s.thread t) pc).1 := by
  have fails : Copied cfg (s.apply t (tryLockFail (s.thread t)).1 (tryLockFail (s.thread t)).2)
      (tryLockFail (s.thread t)).1 := by
    unfold tryLockFail
    split <;> trivial
  have free (o : Nat) : Copied cfg
      (s.apply t (tryLockFree (s.thread t) o).1 (tryLockFree (s.thread t) o).2)
      (tryLockFree (s.thread t) o).1 := by
    unfold tryLockFree
    split <;> trivial
  unfold Copied at copied
  rw [hpc] at copied
  cases pc with
  | header p =>
    cases p with
    | null => trivial
    | copy c =>
      simp only [tryLockStep]
      split_ifs <;> trivial
    | actual o =>
      simp only [tryLockStep]
      split
      · exact free o
      · trivial
      · trivial
  | owner | runCounter | storeActual =>
    simp only [tryLockStep]
    split_ifs <;> trivial
  | syncStore v =>
    simp only [tryLockStep]
    unfold tryLockFail
    split <;> trivial
  | actual | sendLoad | sendStore | syncLoad | storeRun | storeId | storeMark => trivial
  | cas o =>
    simp only [tryLockStep]
    split_ifs
    · exact fun w lt => absurd lt (Nat.not_lt_zero w)
    · exact fails
  | copy o x =>
    simp only [tryLockStep]
    split_ifs with more
    · have cur : ((s.thread t).modifyObj (s.thread t).wsCurId (s.thread t).cur.numOfObjs fun e =>
            { e with copy := Function.update e.copy x (s.obj o x) }).cur =
          (s.thread t).cur.modifyObj (s.thread t).cur.numOfObjs fun e =>
            { e with copy := Function.update e.copy x (s.obj o x) } :=
        Thread.cur_setWriteSet _
      intro w lt bound
      show ((Thread.cur (Thread.modifyObj _ _ _ _)).buffer _).copy w = s.obj o w
      rw [cur]
      show ((WriteSet.modifyObj _ _ _).buffer
        (Thread.cur (Thread.modifyObj _ _ _ _)).numOfObjs).copy w = s.obj o w
      rw [cur, WriteSet.modifyObj_numOfObjs, WriteSet.modifyObj_buffer_self]
      by_cases last : w = x
      · exact last ▸ Function.update_self ..
      · refine (Function.update_of_ne last ..).trans ?_
        exact copied w (by omega) bound
    · trivial
    · intro w bound
      show ((((s.thread t).setWriteSet (s.thread t).wsCurId _).cur).buffer
        (((s.thread t).setWriteSet (s.thread t).wsCurId _).cur.numOfObjs - 1)).copy w = s.obj o w
      rw [Thread.cur_setWriteSet]
      exact copied w (by omega) bound
    · trivial
  | check o =>
    simp only [tryLockStep]
    split_ifs <;> trivial

omit [Inhabited ω] in
theorem ActEffect.tryLock_starts (act : ActEffect cfg s a t e) (pc : (s.thread t).pc = .inSection)
    {q : TryLockPc} (hpc : e.1.pc = .tryLock q) : ∃ p, q = .header p := by
  rcases act with ⟨op, -, called⟩ | ⟨-, stepped⟩
  · rw [pc] at called
    exact ⟨_, callInSection_locks called hpc⟩
  · rw [pc] at stepped
    cases stepped

theorem actEffect_copied (sound : Sound cfg s) (right : RightSlot s a) (act : ActEffect cfg s a t e)
    (copied : ∀ u, Copied cfg s (s.thread u)) (u : Nat) :
    Copied cfg (s.apply t e.1 e.2) ((s.apply t e.1 e.2).thread u) := by
  rw [State.apply_thread]
  by_cases eq : u = t
  · subst eq
    rw [Function.update_self]
    by_cases locking : PcKind.tryLock ∈ (s.thread u).pc.nexts
    · rcases Pc.tryLock_of_nexts locking with pc | ⟨q, pc⟩
      · -- a call of `rlu_try_lock` starts at its start
        unfold Copied
        split
        · rename_i locks
          obtain ⟨p, start⟩ := act.tryLock_starts pc locks
          cases start
        · rename_i locks
          obtain ⟨p, start⟩ := act.tryLock_starts pc locks
          cases start
        · trivial
      · obtain ⟨-, stepped⟩ := act.lib (by rw [pc]; rfl)
        rw [pc] at stepped
        obtain rfl := Option.some.inj stepped
        exact tryLockStep_copied pc (copied u)
    · have flow := actEffect_flow act
      unfold Copied
      split
      · rename_i pc
        rw [pc] at flow
        exact absurd flow locking
      · rename_i pc
        rw [pc] at flow
        exact absurd flow locking
      · trivial
  · rw [Function.update_of_ne eq]
    have here := copied u
    unfold Copied at here ⊢
    split at here
    · rename_i o x pc
      obtain ⟨live, actual⟩ := (sound.wf.threads u).live_of_copied.1 x pc
      have kept := actEffect_obj_of_live sound right act eq live
      rw [actual] at kept
      rw [kept]
      exact here
    · rename_i o pc
      obtain ⟨live, actual⟩ := (sound.wf.threads u).live_of_copied.2 pc
      have kept := actEffect_obj_of_live sound right act eq live
      rw [actual] at kept
      rw [kept]
      exact here
    · trivial

end Step

theorem reachable_pinned [Inhabited ω] {cfg : Config} {init : Nat → Nat → ω}
    {ok : State ω → Act ω → Prop} (orderly : ∀ s a, ok s a → Orderly s a) {s : State ω}
    (h : ReachableFrom cfg init ok s) :
    ∀ r l, (s.thread r).sectionVersion = some l → Pinned s l := by
  refine System.Reachable.invariant_of
    (fun s => ∀ r l, (s.thread r).sectionVersion = some l → Pinned s l)
    (fun _ h => And.intro (reachable_sound orderly (ReachableFrom.reachable h))
      (reachable_snapshots orderly h)) ?_ (fun s a s' known _ pins allowed hs => ?_) h
  · rintro _ rfl r l -
    exact fun p mem => absurd mem List.not_mem_nil
  · rcases step_cases hs with ⟨rfl, rfl⟩ | ⟨t, e, -, act, rfl⟩
    · rw [known.1.wf.threadInit]
      exact pins
    · exact fun r l => actEffect_pins known.1 known.2 (orderly s a allowed).1 act pins

theorem reachable_copied [Inhabited ω] {cfg : Config} {init : Nat → Nat → ω}
    {ok : State ω → Act ω → Prop} (orderly : ∀ s a, ok s a → Orderly s a) {s : State ω}
    (h : ReachableFrom cfg init ok s) : ∀ u, Copied cfg s (s.thread u) := by
  refine System.Reachable.invariant_of (fun s => ∀ u, Copied cfg s (s.thread u))
    (fun _ h => reachable_sound orderly (ReachableFrom.reachable h)) ?_
    (fun s a s' sound _ copied allowed hs => ?_) h
  · rintro _ rfl u
    trivial
  · rcases step_cases hs with ⟨rfl, rfl⟩ | ⟨t, e, -, act, rfl⟩
    · rw [sound.wf.threadInit]
      exact copied
    · exact actEffect_copied sound (orderly s a allowed).1 act copied

/-- What a running section has locked was not published after its version, is in place, and is what
its copy holds when `rlu_try_lock` returns. -/
theorem Sound.locked_value [Inhabited ω] {cfg : Config} {init : Nat → Nat → ω} {s : State ω}
    (sound : Sound cfg s) (snap : Snapshots cfg init s)
    (pins : ∀ r l, (s.thread r).sectionVersion = some l → Pinned s l) {r : Nat}
    (copied : Copied cfg s (s.thread r)) (inside : (s.thread r).runCounter % 2 = 1)
    (returned : (s.thread r).pc.kind ≠ .readerLock) {o i : Nat}
    (locked : s.hdr o = .copy ⟨r, (s.thread r).wsCurId, i⟩) :
    (∀ p ∈ s.published, (s.thread r).localVersion < p.version → ∀ e ∈ p.objs, e.1 ≠ o) ∧
    (∀ w < cfg.objWords, s.obj o w = valueAt init (s.thread r).localVersion s.published o w ∧
      s.obj o w = valueAt init s.gWriterVersion s.published o w) ∧
    ((s.thread r).pc = .tryLock (.check o) → ∀ w < cfg.objWords,
      (s.wsObj ⟨r, (s.thread r).wsCurId, i⟩).copy w = s.obj o w) := by
  have version : (s.thread r).sectionVersion = some (s.thread r).localVersion := by
    rw [Thread.sectionVersion_of_kind returned, if_pos inside]
  -- the section that holds the lock is not in flight
  have idle : (s.thread r).flight = none := ((sound.wf.threads r).control.inside inside).1.2.2.1
  have young (l : Nat) (c : CopyAddr) : ¬ OldLock s l o c := by
    rintro ⟨held, v, flight, -⟩
    obtain rfl := PObjCopy.copy.inj (locked.symm.trans held)
    rw [idle] at flight
    cases flight
  refine ⟨fun p mem newer e mem' same => ?_, fun w lt =>
    ⟨(snap.views r _ version).inPlace o (young _) w lt, snap.latest.inPlace o (young _) w lt⟩,
    fun pc w lt => ?_⟩
  · obtain ⟨c, held, flight⟩ := pins r _ version p mem newer e mem'
    rw [same, locked] at held
    obtain rfl := PObjCopy.copy.inj held
    rw [idle] at flight
    cases flight
  · obtain ⟨live, actual⟩ := (sound.wf.threads r).live_of_copied.2 pc
    -- the entry that names the object is the one that its header names
    have held := sound.locks.installed r _ _ live
    rw [actual, locked] at held
    obtain ⟨slot, rfl⟩ : (s.thread r).wsCurId = wsIndex (s.thread r).wsTailCounter ∧
        i = (s.thread r).cur.numOfObjs - 1 := by
      simpa using held
    unfold Copied at copied
    rw [pc] at copied
    exact copied w lt

/-- First committer wins: an object that a running section has locked was not published after the
section's version. What the section sees of it is still the newest value, it is in place, and
`rlu_try_lock` copies exactly that. -/
theorem first_committer_wins [Inhabited ω] (cfg : Config) (init : Nat → Nat → ω) (s : State ω)
    (h : ReachableFrom cfg init (fun s a => VersionAtomic s a ∧ RightSlot s a) s) (r : Nat)
    (inside : (s.thread r).runCounter % 2 = 1) (returned : (s.thread r).pc.kind ≠ .readerLock)
    (o i : Nat) (locked : s.hdr o = .copy ⟨r, (s.thread r).wsCurId, i⟩) :
    (∀ p ∈ s.published, (s.thread r).localVersion < p.version → ∀ e ∈ p.objs, e.1 ≠ o) ∧
    (∀ w < cfg.objWords, s.obj o w = valueAt init (s.thread r).localVersion s.published o w ∧
      s.obj o w = valueAt init s.gWriterVersion s.published o w) ∧
    ((s.thread r).pc = .tryLock (.check o) → ∀ w < cfg.objWords,
      (s.wsObj ⟨r, (s.thread r).wsCurId, i⟩).copy w = s.obj o w) := by
  have orderly (s : State ω) (a : Act ω) (ok : VersionAtomic s a ∧ RightSlot s a) : Orderly s a :=
    ⟨ok.2, ok.1.noOvertake⟩
  exact (reachable_sound orderly h.reachable).locked_value (reachable_snapshots orderly h)
    (reachable_pinned orderly h) (reachable_copied orderly h r) inside returned locked

def Pc.isCheckOf (o : Nat) : Pc → Bool
  | .tryLock (.check o') => o' == o
  | _ => false

theorem Pc.eq_of_isCheckOf {pc : Pc} {o : Nat} (h : pc.isCheckOf o = true) :
    pc = .tryLock (.check o) := by
  unfold Pc.isCheckOf at h
  split at h
  · rw [eq_of_beq h]
  · cases h

def lateLockRun : List (Act Nat) :=
  [.threadInit, .threadInit, .lib 0, .lib 1] ++ lockAndCommit 0 0 ++ List.replicate 28 (.lib 0) ++
  [.call 1 .readerLock] ++ List.replicate 5 (.lib 1) ++ [.call 1 (.tryLock (.actual 0))] ++
  List.replicate 8 (.lib 1)

theorem first_committer_wins_lateLock : ∃ s : State Nat,
    ReachableFrom oneWriteSet (fun _ _ => 0) (fun s a => VersionAtomic s a ∧ RightSlot s a) s ∧
    s.published ≠ [] ∧ (s.thread 1).pc = .tryLock (.check 0) ∧ ∀ w < oneWriteSet.objWords,
      (s.wsObj ⟨1, (s.thread 1).wsCurId, 0⟩).copy w = s.obj 0 w := by
  let locks (s : State Nat) : Bool :=
    decide ((s.thread 1).runCounter % 2 = 1) && decide ((s.thread 1).pc.kind ≠ .readerLock) &&
      (s.thread 1).pc.isCheckOf 0 &&
      decide (s.hdr 0 = .copy ⟨1, (s.thread 1).wsCurId, 0⟩) && !s.published.isEmpty
  have reached : ((System.run (System.guarded (step oneWriteSet)
      fun s a => VersionAtomic s a ∧ RightSlot s a) (State.init fun _ _ => 0) lateLockRun).any
        locks) = true := by
    decide +kernel
  obtain ⟨s, h, facts⟩ : ∃ s, ReachableFrom oneWriteSet (fun _ _ => 0)
      (fun s a => VersionAtomic s a ∧ RightSlot s a) s ∧ locks s = true :=
    System.exists_reachable (by rfl) reached
  simp only [locks, Bool.and_eq_true, decide_eq_true_eq] at facts
  obtain ⟨⟨⟨⟨inside, returned⟩, pc⟩, locked⟩, published⟩ := facts
  have pc := Pc.eq_of_isCheckOf pc
  have published : s.published ≠ [] := by simpa using published
  exact ⟨s, h, published, pc, (first_committer_wins oneWriteSet _ s h 1 inside returned 0 0 locked).2.2 pc⟩

end ReadLogUpdate
