import ReadLogUpdate.Rlu.Drain
import ReadLogUpdate.Rlu.Shortcuts

/-!
# Copies that other sections hold

A section that steals a copy keeps its address until it ends. The slot of the copy stays in the
ring of its thread as long as that: the sync that recycles the slot waits for the section, since
the section took its version before.
-/

namespace ReadLogUpdate

variable {ω : Type}

/-- From the increment of `g_rlu_writer_version` to the end of the wait. -/
def Pc.scanning : Pc → Bool
  | .sync _ (.initLoop _) | .sync _ (.initThread _) | .sync _ (.initCounter _) | .sync _ .waitStart
  | .sync _ (.waitLoop _ _) | .sync _ (.waitCounter _ _) | .sync _ (.waitVersion _ _)
  | .sync _ .reset => true
  | _ => false

/-- From the load of `g_rlu_writer_version` to the end of the wait. -/
def Pc.announced : Pc → Bool
  | .sync _ (.storeVersion _) | .sync _ .fetchAdd => true
  | pc => pc.scanning

/-- The running sync of `w`, if any, does not end its wait before the section of thread `r`. -/
def Thread.Awaits (w : Thread ω) (r : Nat) (k : Thread ω) : Prop :=
  match w.pc with
  | .sync _ (.storeVersion v) => k.localVersion ≤ v
  | .sync _ .fetchAdd => ∃ v, w.writerVersion = some v ∧ k.localVersion < v
  | pc => pc.scanning = true →
    (∃ v, w.writerVersion = some v ∧ k.localVersion < v) ∧ pc.Guards r (w.qThreads r) k.runCounter

/-- The slot of copy `c` is in the ring of `w`, and stays there until the section of `r` ends. -/
def Thread.Keeps (w : Thread ω) (r : Nat) (k : Thread ω) (c : CopyAddr) : Prop :=
  ∃ ctr, w.wsHeadCounter ≤ ctr ∧ ctr < w.wsTailCounter ∧ wsIndex ctr = c.slot ∧
    (ctr < w.wsWbCounter → w.Awaits r k)

/-- The section of `k` took its version before the running sync of `w`, if any. -/
def Thread.Precedes (k w : Thread ω) : Prop :=
  (∀ v, w.writerVersion = some v → k.localVersion < v) ∧
  ∀ j v, w.pc = .sync j (.storeVersion v) → k.localVersion ≤ v

/-- What a step outside a sync does to the ring and the version of its thread. -/
structure Thread.SameRing (th th' : Thread ω) : Prop where
  writer : th'.writerVersion = th.writerVersion
  head : th'.wsHeadCounter = th.wsHeadCounter
  wb : th'.wsWbCounter = th.wsWbCounter
  tail : th.wsTailCounter ≤ th'.wsTailCounter

section Record
variable {cfg : Config} {s : State ω} {t : Nat} {th : Thread ω} {a : Act ω} {e : Effect ω}

theorem Thread.SameRing.of_eq {th' : Thread ω} (writer : th'.writerVersion = th.writerVersion)
    (window : th'.window = th.window) : th.SameRing th' := by
  obtain ⟨head, wb, tail, -⟩ := Thread.window_eq window
  exact ⟨writer, head, wb, Nat.le_of_eq tail.symm⟩

theorem afterSync_ring (k : Caller) : th.SameRing (afterSync th k).1 := by
  cases k with
  | commit =>
    simp only [afterSync]
    split_ifs <;> exact .of_eq rfl rfl
  | _ => exact .of_eq rfl rfl

theorem tryLockStep_ring (pc : TryLockPc) : th.SameRing (tryLockStep cfg s t th pc).1 := by
  cases pc with
  | header p =>
    cases p <;> simp only [tryLockStep, tryLockFree] <;> (repeat' split) <;> exact .of_eq rfl rfl
  | owner | runCounter | syncStore | storeActual | cas | copy | check =>
    simp only [tryLockStep, tryLockFail, tryLockReturn]
    (repeat' split) <;> exact .of_eq rfl rfl
  | _ => exact .of_eq rfl rfl

theorem releaseStep_ring (r : Releaser) (pc : ReleasePc) :
    th.SameRing (releaseStep s t th r pc).1 := by
  cases pc <;> simp only [releaseStep] <;> (repeat' split) <;> cases r <;> exact .of_eq rfl rfl

theorem readerUnlockStep_ring : th.SameRing (readerUnlockStep cfg th).1 := by
  simp only [readerUnlockStep, afterSync]
  by_cases detected : th.isWriteDetected
  · rw [if_pos detected]
    (repeat' split) <;> exact ⟨rfl, rfl, rfl, Nat.le_succ _⟩
  · rw [if_neg detected]
    exact .of_eq rfl rfl

theorem callInSection_ring {op : Op ω} (called : callInSection cfg s t th op = some e) :
    th.SameRing e.1 := by
  cases op with
  | readerLock | checkpoint | finish => cases called
  | readerUnlock | abort =>
    obtain rfl := Option.some.inj called
    unfold rluUnregisterThread
    split_ifs <;> exact .of_eq rfl rfl
  | deref p | tryLock p | lock p | tryWriterLock l =>
    simp only [callInSection, ← apply_ite some, Option.some.injEq] at called
    subst called
    split_ifs <;> exact .of_eq rfl rfl
  | store c w x =>
    simp only [callInSection] at called
    split_ifs at called
    obtain rfl := Option.some.inj called
    exact .of_eq rfl rfl
  | free p =>
    obtain rfl := Option.some.inj called
    unfold rluFree
    split
    · exact .of_eq rfl rfl
    · split_ifs <;> exact .of_eq rfl rfl
    · exact .of_eq rfl rfl

theorem call_ring {op : Op ω} (called : call cfg s t th op th.pc = some e) : th.SameRing e.1 := by
  cases hpc : th.pc with
  | idle =>
    rw [hpc] at called
    cases op with
    | readerLock | checkpoint | finish =>
      obtain rfl := Option.some.inj called
      exact .of_eq rfl rfl
    | _ => cases called
  | inSection =>
    rw [hpc] at called
    exact callInSection_ring called
  | mustAbort =>
    rw [hpc] at called
    cases op with
    | abort =>
      obtain rfl := Option.some.inj called
      unfold rluUnregisterThread
      split_ifs <;> exact .of_eq rfl rfl
    | _ => cases called
  | _ =>
    rw [hpc] at called
    cases called

/-- Outside a sync a thread drains nothing and keeps its version. -/
theorem actEffect_ring (act : ActEffect cfg s a t e)
    (outside : ∀ k q, (s.thread t).pc ≠ .sync k q) : (s.thread t).SameRing e.1 := by
  rcases act with ⟨op, -, called⟩ | ⟨-, stepped⟩
  · exact call_ring called
  · cases hpc : (s.thread t).pc with
    | sync k q => exact absurd hpc (outside k q)
    | init =>
      rw [hpc] at stepped
      rcases libStep_init stepped with ⟨-, rfl⟩ | rfl <;> exact .of_eq rfl rfl
    | syncCheckpoint k =>
      rw [hpc] at stepped
      simp only [libStep, ← apply_ite some, Option.some.injEq] at stepped
      subst stepped
      split_ifs
      · exact afterSync_ring k
      · exact .of_eq rfl rfl
    | readerLock pc =>
      rw [hpc] at stepped
      obtain rfl := Option.some.inj stepped
      cases pc <;> simp only [readerLockStep] <;> (repeat' split) <;> exact .of_eq rfl rfl
    | deref pc =>
      rw [hpc] at stepped
      obtain rfl := Option.some.inj stepped
      cases pc <;> simp only [derefStep, derefReturn] <;> (repeat' split) <;> exact .of_eq rfl rfl
    | tryLock pc =>
      rw [hpc] at stepped
      obtain rfl := Option.some.inj stepped
      exact tryLockStep_ring pc
    | writerLock pc =>
      rw [hpc] at stepped
      obtain rfl := Option.some.inj stepped
      cases pc <;> simp only [writerLockStep] <;> split_ifs <;> exact .of_eq rfl rfl
    | readerUnlock =>
      rw [hpc] at stepped
      obtain rfl := Option.some.inj stepped
      exact readerUnlockStep_ring
    | abort pc =>
      rw [hpc] at stepped
      obtain rfl := Option.some.inj stepped
      cases pc <;> simp only [abortStep] <;> (repeat' split) <;> exact .of_eq rfl rfl
    | release r pc =>
      rw [hpc] at stepped
      obtain rfl := Option.some.inj stepped
      exact releaseStep_ring r pc
    | _ =>
      rw [hpc] at stepped
      cases stepped

theorem Thread.awaits_of_calm {r : Nat} {k : Thread ω} (calm : th.pc.announced = false) :
    th.Awaits r k := by
  unfold Thread.Awaits
  split
  · rename_i pc
    rw [pc] at calm
    cases calm
  · rename_i pc
    rw [pc] at calm
    cases calm
  · rename_i load fetch
    intro scanning
    have same : th.pc.announced = th.pc.scanning := by
      unfold Pc.announced
      split
      · rename_i pc
        exact absurd pc (load _ _)
      · rename_i pc
        exact absurd pc (fetch _)
      · rfl
    rw [← same, calm] at scanning
    cases scanning

theorem Thread.Keeps.of_ring {r : Nat} {k th' : Thread ω} {c : CopyAddr} (keeps : th.Keeps r k c)
    (ring : th.SameRing th') (calm : th'.pc.announced = false) : th'.Keeps r k c := by
  obtain ⟨ctr, ge, lt, slot, -⟩ := keeps
  exact ⟨ctr, by rwa [ring.head], Nat.lt_of_lt_of_le lt ring.tail, slot,
    fun _ => Thread.awaits_of_calm calm⟩

theorem afterSync_calm (k : Caller) : (afterSync th k).1.pc.announced = false := by
  cases k with
  | commit =>
    simp only [afterSync]
    split_ifs <;> rfl
  | _ => rfl

theorem syncStep_awaits {k : Caller} {pc : SyncPc} {r : Nat} (h : ThreadOk cfg t th)
    (hpc : th.pc = .sync k pc) (scanning : th.pc.scanning = true) (ne : r ≠ t)
    (lt : r < s.gCurThreads) (registered : s.gThreads r = true)
    (odd : (s.thread r).runCounter % 2 = 1) (awaits : th.Awaits r (s.thread r)) :
    (syncStep cfg s t th k pc).1.Awaits r (s.thread r) := by
  have control := h.control
  rw [hpc] at control scanning
  unfold Thread.Awaits at awaits
  rw [hpc] at awaits
  have next (older : ∃ v, th.writerVersion = some v ∧ (s.thread r).localVersion < v)
      (guards : (Pc.sync k pc).Guards r (th.qThreads r) (s.thread r).runCounter)
      (flight : th.writerVersion = th.flight)
      (load : ∀ j v, (syncStep cfg s t th k pc).1.pc ≠ .sync j (.storeVersion v))
      (fetch : ∀ j, (syncStep cfg s t th k pc).1.pc ≠ .sync j .fetchAdd)
      (writer : (syncStep cfg s t th k pc).1.writerVersion = th.writerVersion) :
      (syncStep cfg s t th k pc).1.Awaits r (s.thread r) := by
    obtain ⟨v, shown, lt'⟩ := older
    have guards' := syncStep_guards h hpc ne lt registered odd (flight ▸ shown) lt' guards
    unfold Thread.Awaits
    split
    · rename_i e
      exact absurd e (load _ _)
    · rename_i e
      exact absurd e (fetch _)
    · exact fun _ => ⟨⟨v, by rw [writer, shown], lt'⟩, guards'⟩
  cases pc with
  | initLoop u | initThread u | waitLoop n u | waitCounter n u =>
    refine next (awaits rfl).1 (awaits rfl).2 control.2.2 ?_ ?_ ?_
    all_goals
      simp only [syncStep]
      split_ifs <;> first | rfl | rintro _ _ ⟨⟩ | rintro _ ⟨⟩
  | waitVersion n u =>
    refine next (awaits rfl).1 (awaits rfl).2 control.2.2 ?_ ?_ ?_
    all_goals
      simp only [syncStep]
      (repeat' split) <;> first | rfl | rintro _ _ ⟨⟩ | rintro _ ⟨⟩
  | initCounter u | waitStart => exact next (awaits rfl).1 (awaits rfl).2 control.2.2 (by rintro _ _ ⟨⟩) (by rintro _ ⟨⟩) rfl
  | reset => exact (awaits rfl).2.elim
  | _ => cases scanning

/-- No step of a sync lets go of a copy that another section holds. -/
theorem syncStep_keeps {k : Caller} {pc : SyncPc} {r : Nat} {c : CopyAddr} (h : ThreadOk cfg t th)
    (hpc : th.pc = .sync k pc) (ne : r ≠ t) (lt : r < s.gCurThreads) (registered : s.gThreads r = true)
    (odd : (s.thread r).runCounter % 2 = 1) (le : (s.thread r).localVersion ≤ s.gWriterVersion)
    (keeps : th.Keeps r (s.thread r) c) :
    (syncStep cfg s t th k pc).1.Keeps r (s.thread r) c := by
  obtain ⟨ctr, ge, below, slot, awaits⟩ := id keeps
  have still {th' : Thread ω} (window : th'.window = th.window)
      (waits : ctr < th.wsWbCounter → th'.Awaits r (s.thread r)) : th'.Keeps r (s.thread r) c := by
    obtain ⟨head, wb, tail, -⟩ := Thread.window_eq window
    exact ⟨ctr, by rwa [head], by rwa [tail], slot, fun behind => waits (by rwa [wb] at behind)⟩
  have scan (scanning : th.pc.scanning = true)
      (window : (syncStep cfg s t th k pc).1.window = th.window) :
      (syncStep cfg s t th k pc).1.Keeps r (s.thread r) c :=
    still window fun behind =>
      syncStep_awaits h hpc scanning ne lt registered odd (awaits behind)
  cases pc with
  | start =>
    simp only [syncStep]
    split_ifs with even empty
    · exact keeps.of_ring (afterSync_ring k) (afterSync_calm k)
    · exact keeps.of_ring (.of_eq rfl rfl) rfl
    · exact keeps.of_ring (.of_eq rfl rfl) rfl
  | loadVersion => exact still rfl fun _ => le
  | storeVersion v =>
    refine still rfl fun behind => ⟨v + 1, rfl, Nat.lt_succ_of_le ?_⟩
    have awaits := awaits behind
    unfold Thread.Awaits at awaits
    rw [hpc] at awaits
    exact awaits
  | fetchAdd =>
    refine still rfl fun behind _ => ⟨?_, fun before => absurd before (Nat.not_lt_zero r)⟩
    have awaits := awaits behind
    unfold Thread.Awaits at awaits
    rw [hpc] at awaits
    exact awaits
  | initLoop u | initThread u | waitLoop n u | waitCounter n u =>
    refine scan (by rw [hpc]; rfl) ?_
    simp only [syncStep]
    split_ifs <;> rfl
  | waitVersion n u =>
    refine scan (by rw [hpc]; rfl) ?_
    simp only [syncStep]
    (repeat' split) <;> rfl
  | initCounter u | waitStart => exact scan (by rw [hpc]; rfl) rfl
  | reset =>
    simp only [syncStep]
    rw [rluResetWriteSets_rest]
    refine ⟨ctr, ?_, below, slot, fun _ => Thread.awaits_of_calm rfl⟩
    -- what was written back before has nobody left in it
    by_contra behind
    have awaits := awaits (Nat.lt_of_not_le behind)
    unfold Thread.Awaits at awaits
    rw [hpc] at awaits
    exact (awaits rfl).2
  | entry c' i =>
    simp only [syncStep]
    split_ifs
    · exact keeps.of_ring (.of_eq rfl rfl) rfl
    · exact keeps.of_ring (.of_eq rfl rfl) rfl
    · exact keeps.of_ring (.of_eq rfl rfl) rfl
    · exact ⟨ctr, ge, below, slot, fun _ => Thread.awaits_of_calm rfl⟩
    · exact keeps.of_ring (.of_eq rfl rfl) rfl
  | check c' i | free i =>
    simp only [syncStep]
    (repeat' split) <;> exact keeps.of_ring (.of_eq rfl rfl) rfl
  | copy c' i w | loadSync =>
    simp only [syncStep]
    split_ifs <;> exact keeps.of_ring (.of_eq rfl rfl) rfl
  | storeMax => exact ⟨ctr, ge, below, slot, fun _ => Thread.awaits_of_calm rfl⟩
  | freeCheck i =>
    simp only [syncStep]
    split
    · split_ifs <;> exact keeps.of_ring (.of_eq rfl rfl) rfl
    · have ring : Thread.SameRing { th with freeNodes := [] } _ := afterSync_ring k
      exact keeps.of_ring ⟨ring.writer, ring.head, ring.wb, ring.tail⟩ (afterSync_calm k)
  | _ => exact keeps.of_ring (.of_eq rfl rfl) rfl

/-- A section that took its version before a sync stays before it. -/
theorem syncStep_precedes {k : Caller} {pc : SyncPc} {r : Thread ω} (hpc : th.pc = .sync k pc) (le : r.localVersion ≤ s.gWriterVersion) (precedes : r.Precedes th) :
    r.Precedes (syncStep cfg s t th k pc).1 := by
  have same {th' : Thread ω} (writer : th'.writerVersion = th.writerVersion)
      (load : ∀ j v, th'.pc ≠ .sync j (.storeVersion v)) : r.Precedes th' :=
    ⟨by rw [writer]; exact precedes.1, fun j v e => absurd e (load j v)⟩
  have after {th' : Thread ω} (writer : th'.writerVersion = th.writerVersion) :
      r.Precedes (afterSync th' k).1 :=
    same ((afterSync_ring k).writer.trans writer) fun j v e => by cases afterSync_start k e
  cases pc with
  | start =>
    simp only [syncStep]
    split_ifs
    · exact after rfl
    · exact same rfl (by rintro _ _ ⟨⟩)
    · exact same rfl (by rintro _ _ ⟨⟩)
  | loadVersion =>
    refine ⟨precedes.1, fun j v e => ?_⟩
    cases e
    exact le
  | storeVersion v =>
    refine ⟨fun v' e => ?_, by rintro _ _ ⟨⟩⟩
    obtain rfl := Option.some.inj e
    exact Nat.lt_succ_of_le (precedes.2 k v hpc)
  | reset =>
    simp only [syncStep]
    rw [rluResetWriteSets_rest]
    exact same rfl (by rintro _ _ ⟨⟩)
  | storeMax => exact ⟨by rintro _ ⟨⟩, by rintro _ _ ⟨⟩⟩
  | freeCheck i =>
    simp only [syncStep]
    split
    · split_ifs <;> exact same rfl (by rintro _ _ ⟨⟩)
    · exact after rfl
  | check c' i | free i | waitVersion n u =>
    simp only [syncStep]
    (repeat' split) <;> exact same rfl (by rintro _ _ ⟨⟩)
  | initLoop u | initThread u | waitLoop n u | waitCounter n u | entry c' i | copy c' i w | loadSync =>
    simp only [syncStep]
    split_ifs <;> exact same rfl (by rintro _ _ ⟨⟩)
  | _ => exact same rfl (by rintro _ _ ⟨⟩)

theorem actEffect_keeps {r : Nat} {c : CopyAddr} (h : ThreadOk cfg t (s.thread t))
    (act : ActEffect cfg s a t e) (ne : r ≠ t) (lt : r < s.gCurThreads)
    (registered : s.gThreads r = true) (odd : (s.thread r).runCounter % 2 = 1)
    (le : (s.thread r).localVersion ≤ s.gWriterVersion)
    (keeps : (s.thread t).Keeps r (s.thread r) c) : e.1.Keeps r (s.thread r) c := by
  by_cases busy : ∃ k q, (s.thread t).pc = .sync k q
  · obtain ⟨k, q, hpc⟩ := busy
    rw [act.sync hpc]
    exact syncStep_keeps h hpc ne lt registered odd le keeps
  · refine keeps.of_ring (actEffect_ring act fun k q hpc => busy ⟨k, q, hpc⟩) ?_
    cases hpc : e.1.pc with
    | sync k q =>
      rcases actEffect_start act hpc with rfl | before
      · rfl
      · exact absurd before busy
    | _ => rfl

theorem actEffect_precedes {r : Thread ω} (act : ActEffect cfg s a t e)
    (le : r.localVersion ≤ s.gWriterVersion) (precedes : r.Precedes (s.thread t)) :
    r.Precedes e.1 := by
  by_cases busy : ∃ k q, (s.thread t).pc = .sync k q
  · obtain ⟨k, q, hpc⟩ := busy
    rw [act.sync hpc]
    exact syncStep_precedes hpc le precedes
  · have ring := actEffect_ring act fun k q hpc => busy ⟨k, q, hpc⟩
    refine ⟨by rw [ring.writer]; exact precedes.1, fun j v hpc => ?_⟩
    rcases actEffect_start act hpc with start | before
    · cases start
    · exact absurd before busy

/-- A live entry is in a slot that its thread keeps, or the thread has not begun to sync it. -/
theorem ThreadOk.keeps_of_live {r : Nat} {k : Thread ω} {c : CopyAddr} (h : ThreadOk cfg t th)
    {ctr : Nat} (live : th.Live ctr c.idx) (slot : wsIndex ctr = c.slot) :
    th.Keeps r k c ∨ k.Precedes th := by
  have ge := h.live_ge live
  rcases live.2 with ⟨lt, -⟩ | ⟨-, -, active⟩
  · exact .inl ⟨ctr, Nat.le_trans h.head_le_wb ge, lt, slot, fun behind => by omega⟩
  · refine .inr ⟨fun v shown => ?_, fun j v hpc => ?_⟩
    · cases flight : th.flight with
      | none =>
        obtain ⟨j, hpc⟩ := h.control.fetching flight shown
        rw [hpc] at active
        exact absurd trivial active
      | some v' => exact absurd ((h.control.inFlight flight).1 c.idx) active
    · rw [hpc] at active
      exact absurd trivial active

end Record

/-! ### What a section was given -/

/-- Thread `u` may hold the pointer: it is no copy of another thread, or `RLU_DEREF` returned it in
the running section. -/
def Ptr.Held (p : Ptr) (u : Nat) (k : Thread ω) : Prop :=
  ∀ c, p = .copy c → c.owner ≠ u → ∃ d ∈ k.derefs, d.result = .copy c

def Op.pointer : Op ω → Ptr
  | .deref p | .tryLock p | .lock p | .free p => p
  | .store c _ _ => .copy c
  | _ => .null

def PassesHeld (s : State ω) : Act ω → Prop
  | .call u op => op.pointer.Held u (s.thread u)
  | _ => True

instance (p : Ptr) (u : Nat) (k : Thread ω) : Decidable (p.Held u k) :=
  match p with
  | .copy c => decidable_of_iff (c.owner ≠ u → ∃ d ∈ k.derefs, d.result = .copy c)
      ⟨fun h c' e ne => by cases e; exact h ne, fun h => h c rfl⟩
  | .null | .actual _ => isTrue nofun

instance (s : State ω) (a : Act ω) : Decidable (PassesHeld s a) :=
  match a with
  | .call _ _ => inferInstanceAs (Decidable (Ptr.Held _ _ _))
  | .lib _ | .threadInit => inferInstanceAs (Decidable True)

/-- What a thread on its way through `RLU_DEREF` knows of the copy it may return. -/
def DerefHolds (s : State ω) (u : Nat) : Pc → Prop
  | .deref (.header p) | .deref (.slow p) => p.Held u (s.thread u)
  | .deref (.owner p c) => p.Held u (s.thread u) ∧ (s.wsObj c).threadId = c.owner ∧
      (c.owner ≠ u → (s.thread c.owner).Keeps u (s.thread u) c ∨
        (s.thread u).Precedes (s.thread c.owner))
  | .deref (.version p c thId) => p.Held u (s.thread u) ∧ thId = c.owner ∧
      (c.owner ≠ u → (s.thread c.owner).Keeps u (s.thread u) c ∨
        (s.thread u).Precedes (s.thread c.owner))
  | _ => True

structure Lending (s : State ω) : Prop where
  registered : ∀ u, (s.thread u).pc.under.kind ≠ .init → s.gThreads u = true
  fresh : ∀ u, (s.thread u).pc.kind = .readerLock →
    (s.thread u).pc = .readerLock .register ∨ (s.thread u).derefs = []
  version_le : ∀ u, (s.thread u).localVersion ≤ s.gWriterVersion
  loaded_le : ∀ u v, (s.thread u).pc = .readerLock (.storeVersion v) → v ≤ s.gWriterVersion
  kept : ∀ u, (s.thread u).runCounter % 2 = 1 → ∀ d ∈ (s.thread u).derefs, ∀ c,
    d.result = .copy c → c.owner ≠ u → (s.thread c.owner).Keeps u (s.thread u) c
  holds : ∀ u, DerefHolds s u (s.thread u).pc

section Pair
variable {cfg : Config} {s : State ω} {t : Nat} {a : Act ω} {e : Effect ω}

theorem Thread.Awaits.congr {w k k' : Thread ω} {r : Nat} (awaits : w.Awaits r k)
    (version : k'.localVersion = k.localVersion) (run : k'.runCounter = k.runCounter) :
    w.Awaits r k' := by
  unfold Thread.Awaits at *
  rw [version, run]
  exact awaits

theorem Thread.Keeps.congr {w k k' : Thread ω} {r : Nat} {c : CopyAddr} (keeps : w.Keeps r k c)
    (version : k'.localVersion = k.localVersion) (run : k'.runCounter = k.runCounter) :
    w.Keeps r k' c := by
  obtain ⟨ctr, ge, lt, slot, awaits⟩ := keeps
  exact ⟨ctr, ge, lt, slot, fun behind => (awaits behind).congr version run⟩

theorem Thread.Precedes.congr {w k k' : Thread ω} (precedes : k.Precedes w)
    (version : k'.localVersion = k.localVersion) : k'.Precedes w :=
  ⟨by rw [version]; exact precedes.1, by rw [version]; exact precedes.2⟩

theorem Ptr.Held.congr {p : Ptr} {u : Nat} {k k' : Thread ω} (held : p.Held u k)
    (derefs : k'.derefs = k.derefs) : p.Held u k' := by
  unfold Ptr.Held
  rw [derefs]
  exact held

/-- A result of `RLU_DEREF` was held before, or it is a copy that its thread keeps. -/
theorem derefStep_result {p r : Ptr} {q : DerefPc} (holds : DerefHolds s t (.deref q))
    (returned : derefStep s t (s.thread t) q = derefReturn (s.thread t) p r) {c : CopyAddr}
    (result : r = .copy c) (other : c.owner ≠ t) :
    (∃ d ∈ (s.thread t).derefs, d.result = .copy c) ∨
      (s.thread c.owner).Keeps t (s.thread t) c := by
  -- the result is the argument
  have same {p' : Ptr} (held : p'.Held t (s.thread t))
      (e : derefReturn (s.thread t) p' p' = derefReturn (s.thread t) p r) :
      (∃ d ∈ (s.thread t).derefs, d.result = .copy c) ∨
        (s.thread c.owner).Keeps t (s.thread t) c := by
    obtain ⟨-, rfl⟩ := derefReturn_inj e
    exact .inl (held c result other)
  have goes {b : Prop} {pc : DerefPc}
      (e : (s.thread t).go (.deref pc) = derefReturn (s.thread t) p r) : b := by
    cases congrArg (fun e : Effect ω => e.1.pc) e
  cases q with
  | header p' =>
    simp only [derefStep] at returned
    split_ifs at returned
    · exact same holds returned
    · exact goes returned
  | slow p' =>
    simp only [derefStep] at returned
    split at returned
    · exact same holds returned
    · exact same holds returned
    · exact goes returned
  | owner p' c' =>
    obtain ⟨held, named, -⟩ := holds
    simp only [derefStep] at returned
    split_ifs at returned with own
    · obtain ⟨-, e⟩ := derefReturn_inj returned
      obtain rfl : c' = c := Ptr.copy.inj (e.trans result)
      exact absurd (named.symm.trans own) other
    · exact goes returned
    · exact same held returned
  | version p' c' thId =>
    obtain ⟨held, rfl, keeps⟩ := holds
    simp only [derefStep] at returned
    split at returned
    · rename_i v shown
      split_ifs at returned with old
      · obtain ⟨-, e⟩ := derefReturn_inj returned
        obtain rfl : c' = c := Ptr.copy.inj (e.trans result)
        rcases keeps other with keeps | precedes
        · exact .inr keeps
        · exact absurd old (Nat.not_le.mpr (precedes.1 v shown))
      · exact same held returned
    · exact same held returned

/-- Where the results of a call from a section come from. -/
theorem callInSection_results {op : Op ω} {th : Thread ω} (called : callInSection cfg s t th op = some e) :
    e.1.derefs = th.derefs ∧ (∀ q, e.1.pc = .deref q → ∃ p, op = .deref p ∧ q = .header p) ∨
    ∃ p, op = .deref p ∧ e = derefReturn th p p := by
  cases op with
  | readerLock | checkpoint | finish => cases called
  | readerUnlock | abort =>
    obtain rfl := Option.some.inj called
    unfold rluUnregisterThread
    split_ifs <;> exact .inl ⟨rfl, by rintro _ ⟨⟩⟩
  | deref p =>
    simp only [callInSection, ← apply_ite some, Option.some.injEq] at called
    subst called
    split_ifs
    · exact .inr ⟨p, rfl, rfl⟩
    · refine .inl ⟨rfl, fun q hpc => ?_⟩
      cases hpc
      exact ⟨p, rfl, rfl⟩
  | tryLock p | lock p | tryWriterLock l =>
    simp only [callInSection, ← apply_ite some, Option.some.injEq] at called
    subst called
    split_ifs <;> exact .inl ⟨rfl, by rintro _ ⟨⟩⟩
  | store c w x =>
    simp only [callInSection] at called
    split_ifs at called
    obtain rfl := Option.some.inj called
    exact .inl ⟨rfl, by rintro _ ⟨⟩⟩
  | free p =>
    obtain rfl := Option.some.inj called
    unfold rluFree
    split
    · exact .inl ⟨rfl, by rintro _ ⟨⟩⟩
    · refine .inl ⟨by split_ifs <;> rfl, fun q hpc => ?_⟩
      dsimp only [Thread.go, Thread.fail] at hpc
      split_ifs at hpc
    · exact .inl ⟨rfl, by rintro _ ⟨⟩⟩

/-- The argument of an `RLU_DEREF` that starts was held, and so was its result if it is over at
once. -/
theorem actEffect_starts (act : ActEffect cfg s a t e) (passes : PassesHeld s a)
    (inside : (s.thread t).pc = .inSection) :
    e.1.derefs = (s.thread t).derefs ∧
      (∀ q, e.1.pc = .deref q → ∃ p, p.Held t (s.thread t) ∧ q = .header p) ∨
    ∃ p, p.Held t (s.thread t) ∧ e = derefReturn (s.thread t) p p := by
  rcases act with ⟨op, rfl, called⟩ | ⟨-, stepped⟩
  · rw [inside] at called
    rcases callInSection_results called with ⟨derefs, starts⟩ | ⟨p, rfl, effect⟩
    · refine .inl ⟨derefs, fun q hpc => ?_⟩
      obtain ⟨p, rfl, rfl⟩ := starts q hpc
      exact ⟨p, passes, rfl⟩
    · exact .inr ⟨p, passes, effect⟩
  · rw [inside] at stepped
    cases stepped

end Pair

section Step
variable [Inhabited ω] {cfg : Config} {s : State ω} {t : Nat} {a : Act ω} {e : Effect ω}

theorem actEffect_lends (wf : WellFormed cfg s) (lending : Lending s) (passes : PassesHeld s a)
    (act : ActEffect cfg s a t e) (odd : e.1.runCounter % 2 = 1) {d : Deref} (mem : d ∈ e.1.derefs)
    {c : CopyAddr} (result : d.result = .copy c) (other : c.owner ≠ t) :
    (s.thread c.owner).Keeps t e.1 c := by
  have empty {q : ReaderLockPc} (pc : (s.thread t).pc = .readerLock q) (later : q ≠ .register) :
      (s.thread t).derefs = [] :=
    (lending.fresh t (by rw [pc]; rfl)).resolve_left fun e => later (Pc.readerLock.inj (pc.symm.trans e))
  have none {b : Prop} (derefs : e.1.derefs = []) : b := by
    rw [derefs] at mem
    cases mem
  cases actEffect_section (wf.threads t) act with
  | same run version steal check derefs =>
    rw [derefs] at mem
    rw [run] at odd
    exact (lending.kept t odd d mem c result other).congr version run
  | outside even run => omega
  | register pc effect =>
    subst effect
    cases mem
  | loadVersion pc effect | storeVersion v pc effect | loadCommit pc effect =>
    subst effect
    exact none (empty pc nofun)
  | deref p r effect source =>
    subst effect
    rcases List.mem_cons.mp mem with rfl | mem
    · have given : (∃ d ∈ (s.thread t).derefs, d.result = .copy c) ∨
          (s.thread c.owner).Keeps t (s.thread t) c := by
        rcases source with ⟨inside, -, rfl⟩ | ⟨q, pc, returned⟩
        · rcases actEffect_starts act passes inside with ⟨derefs, -⟩ | ⟨p, held, effect⟩
          · exact absurd derefs (List.cons_ne_self _ _)
          · obtain ⟨-, rfl⟩ := derefReturn_inj effect
            exact .inl (held c result other)
        · exact derefStep_result (pc ▸ lending.holds t) returned result other
      rcases given with ⟨d, mem, same⟩ | keeps
      · exact (lending.kept t odd d mem c same other).congr rfl rfl
      · exact keeps.congr rfl rfl
    · exact (lending.kept t odd d mem c result other).congr rfl rfl
  | leave odd' run => omega

theorem derefStep_holds (wf : WellFormed cfg s) (locks : ∀ w, LocksOf w s) (owners : Owners s)
    {q q' : DerefPc} (holds : DerefHolds s t (.deref q))
    (next : (derefStep s t (s.thread t) q).1.pc = .deref q') : DerefHolds s t (.deref q') := by
  have beyond {b : Prop} {p r : Ptr} (e : (derefReturn (s.thread t) p r).1.pc = .deref q') : b := by
    cases e
  cases q with
  | header p =>
    simp only [derefStep] at next
    split_ifs at next
    · exact beyond next
    · cases next
      exact holds
  | slow p =>
    simp only [derefStep] at next
    split at next
    · exact beyond next
    · exact beyond next
    · rename_i c held
      cases next
      cases p with
      | null => cases held
      | copy c' => exact absurd held (owners.unchained c' c)
      | actual o =>
        refine ⟨holds, owners.named o c held, fun _ => ?_⟩
        obtain ⟨ctr, live, slot, -⟩ := (locks c.owner).logged o c held rfl
        exact (wf.threads c.owner).keeps_of_live live slot
  | owner p c =>
    obtain ⟨held, named, keeps⟩ := holds
    simp only [derefStep] at next
    split_ifs at next
    · exact beyond next
    · cases next
      exact ⟨held, named, keeps⟩
    · exact beyond next
  | version p c thId =>
    simp only [derefStep] at next
    (repeat' split at next) <;> exact beyond next

omit [Inhabited ω] in
/-- What a thread on its way through `RLU_DEREF` knows it knows after a step that leaves its section
and its promises alone. -/
theorem DerefHolds.mono {s' : State ω} {u : Nat} {pc : Pc} (holds : DerefHolds s u pc)
    (derefs : (s'.thread u).derefs = (s.thread u).derefs)
    (named : ∀ c, (s.wsObj c).threadId = c.owner → (s'.wsObj c).threadId = c.owner)
    (keeps : ∀ c, c.owner ≠ u → (s.thread c.owner).Keeps u (s.thread u) c →
      (s'.thread c.owner).Keeps u (s'.thread u) c)
    (precedes : ∀ w, w ≠ u → (s.thread u).Precedes (s.thread w) →
      (s'.thread u).Precedes (s'.thread w)) : DerefHolds s' u pc := by
  unfold DerefHolds at *
  split at holds
  · exact holds.congr derefs
  · exact holds.congr derefs
  · obtain ⟨held, name, kept⟩ := holds
    exact ⟨held.congr derefs, named _ name, fun ne =>
      (kept ne).imp (keeps _ ne) (precedes _ ne)⟩
  · obtain ⟨held, name, kept⟩ := holds
    exact ⟨held.congr derefs, name, fun ne => (kept ne).imp (keeps _ ne) (precedes _ ne)⟩
  · trivial

omit [Inhabited ω] in
theorem derefStep_goes {q q' : DerefPc}
    (next : (derefStep s t (s.thread t) q).1.pc = .deref q') :
    (derefStep s t (s.thread t) q).1 = { s.thread t with pc := .deref q' } := by
  cases q <;> simp only [derefStep, derefReturn] at next ⊢ <;> (repeat' split at next) <;>
    first | (cases next; simp_all [Thread.go]) | cases next

theorem actEffect_opens (wf : WellFormed cfg s) (lending : Lending s) (act : ActEffect cfg s a t e)
    (kind : e.1.pc.kind = .readerLock) : e.1.pc = .readerLock .register ∨ e.1.derefs = [] := by
  have empty {q : ReaderLockPc} (pc : (s.thread t).pc = .readerLock q) (later : q ≠ .register) :
      (s.thread t).derefs = [] :=
    (lending.fresh t (by rw [pc]; rfl)).resolve_left fun e =>
      later (Pc.readerLock.inj (pc.symm.trans e))
  cases actEffect_section (wf.threads t) act with
  | same run version steal check derefs notLocking notLocking' => exact absurd kind notLocking'
  | outside even run version locking => exact .inl (locking kind)
  | register pc effect =>
    subst effect
    exact .inr rfl
  | loadVersion pc effect | storeVersion v pc effect | loadCommit pc effect =>
    subst effect
    exact .inr (empty pc nofun)
  | deref p r effect =>
    subst effect
    cases kind
  | leave odd run version pc => exact absurd kind pc

theorem actEffect_localVersion_le (wf : WellFormed cfg s) (lending : Lending s)
    (act : ActEffect cfg s a t e) : e.1.localVersion ≤ s.gWriterVersion := by
  have before := lending.version_le t
  cases actEffect_section (wf.threads t) act with
  | same run version => exact version ▸ before
  | outside even run version => exact version ▸ before
  | register pc effect | loadVersion pc effect | loadCommit pc effect | deref p r effect =>
    subst effect
    exact before
  | storeVersion v pc effect =>
    subst effect
    exact lending.loaded_le t v pc
  | leave odd run version => exact version ▸ before

theorem actEffect_loaded_le (wf : WellFormed cfg s) (act : ActEffect cfg s a t e) {v : Nat}
    (pc : e.1.pc = .readerLock (.storeVersion v)) : v ≤ s.gWriterVersion := by
  cases actEffect_section (wf.threads t) act with
  | same run version steal check derefs notLocking notLocking' =>
    rw [pc] at notLocking'
    exact absurd rfl notLocking'
  | outside even run version locking =>
    have register := locking (by rw [pc]; rfl)
    rw [pc] at register
    cases register
  | loadVersion pc' effect =>
    subst effect
    cases pc
    exact Nat.le_refl _
  | register pc' effect | storeVersion v' pc' effect | loadCommit pc' effect =>
    subst effect
    cases pc
  | deref p r effect =>
    subst effect
    cases pc
  | leave odd run version kind =>
    rw [pc] at kind
    exact absurd rfl kind

/-- What the thread that steps knows on its way through `RLU_DEREF`. -/
theorem actEffect_holds (wf : WellFormed cfg s) (owners : Owners s) (locks : ∀ w, LocksOf w s)
    (lending : Lending s) (passes : PassesHeld s a) (act : ActEffect cfg s a t e) :
    DerefHolds (s.apply t e.1 e.2) t e.1.pc := by
  cases hpc : e.1.pc with
  | deref q' =>
    have flow := actEffect_flow act
    rw [hpc] at flow
    have self : (s.apply t e.1 e.2).thread t = e.1 := by
      rw [State.apply_thread, Function.update_self]
    rcases Pc.deref_of_nexts flow with inside | ⟨q, before⟩
    · rcases actEffect_starts act passes inside with ⟨derefs, starts⟩ | ⟨p, -, effect⟩
      · obtain ⟨p, held, rfl⟩ := starts q' hpc
        show p.Held t ((s.apply t e.1 e.2).thread t)
        rw [self]
        exact held.congr derefs
      · rw [effect] at hpc
        cases hpc
    · have stepped := (act.lib (by rw [before]; rfl)).2
      rw [before] at stepped
      obtain rfl := Option.some.inj stepped
      have goes := derefStep_goes hpc
      have holds := derefStep_holds wf locks owners (before ▸ lending.holds t) hpc
      refine holds.mono ?_ (fun c name => ?_) (fun c ne keeps => ?_) fun w ne precedes => ?_
      · rw [self, goes]
      · rcases ((actEffect_hdr act).wsObj c).1 with own | same
        · exact own
        · exact same.trans name
      · rw [self, State.apply_thread, Function.update_of_ne ne]
        exact keeps.congr (by rw [goes]) (by rw [goes])
      · rw [self, State.apply_thread, Function.update_of_ne ne]
        exact precedes.congr (by rw [goes])
  | _ => trivial

theorem WellFormed.begun (wf : WellFormed cfg s) (fresh : s.Fresh) {u : Nat}
    (odd : (s.thread u).runCounter % 2 = 1) :
    u < s.gCurThreads ∧ (s.thread u).pc.under.kind ≠ .init := by
  have kind : (s.thread u).pc.under.kind ≠ .init := by
    intro initial
    have even := (wf.threads u).control.even_of_init initial
    omega
  refine ⟨?_, kind⟩
  by_contra beyond
  rw [fresh u (Nat.le_of_not_lt beyond)] at kind
  exact kind rfl

theorem step_lending {s' : State ω} (wf : WellFormed cfg s) (fresh : s.Fresh) (owners : Owners s)
    (locks : ∀ w, LocksOf w s) (lending : Lending s) (passes : PassesHeld s a)
    (hs : step cfg s a = some s') : Lending s' := by
  rcases step_cases hs with ⟨-, rfl⟩ | ⟨t, e, lt, act, rfl⟩
  · rw [fresh.threadInit]
    exact ⟨lending.registered, lending.fresh, lending.version_le, lending.loaded_le, lending.kept,
      lending.holds⟩
  have stays : s.gWriterVersion ≤ (s.apply t e.1 e.2).gWriterVersion :=
    s.apply_gWriterVersion t e.1 e.2
  have self : (s.apply t e.1 e.2).thread t = e.1 := by
    rw [State.apply_thread, Function.update_self]
  have foreign {u : Nat} (ne : u ≠ t) : (s.apply t e.1 e.2).thread u = s.thread u := by
    rw [State.apply_thread, Function.update_of_ne ne]
  -- what the other threads rely on
  have keeps {u : Nat} (ne : u ≠ t) (odd : (s.thread u).runCounter % 2 = 1) {c : CopyAddr}
      (kept : (s.thread c.owner).Keeps u (s.thread u) c) :
      ((s.apply t e.1 e.2).thread c.owner).Keeps u (s.thread u) c := by
    by_cases here : c.owner = t
    · rw [here] at kept ⊢
      rw [self]
      obtain ⟨there, kind⟩ := wf.begun fresh odd
      exact actEffect_keeps (wf.threads t) act ne there (lending.registered u kind) odd
        (lending.version_le u) kept
    · rw [foreign here]
      exact kept
  refine ⟨fun u => actEffect_registers lending.registered act, fun u kind => ?_, fun u => ?_,
    fun u v pc => ?_, fun u odd d mem c result other => ?_, fun u => ?_⟩
  all_goals
    by_cases own : u = t
    on_goal 1 => subst own; rw [self] at *
    on_goal 2 => rw [foreign own] at *
  · exact actEffect_opens wf lending act kind
  · exact lending.fresh u kind
  · exact Nat.le_trans (actEffect_localVersion_le wf lending act) stays
  · exact Nat.le_trans (lending.version_le u) stays
  · exact Nat.le_trans (actEffect_loaded_le wf act pc) stays
  · exact Nat.le_trans (lending.loaded_le u v pc) stays
  · rw [foreign other]
    exact actEffect_lends wf lending passes act odd mem result other
  · exact keeps own odd (lending.kept u odd d mem c result other)
  · exact actEffect_holds wf owners locks lending passes act
  · have holds := lending.holds u
    cases hpc : (s.thread u).pc with
    | deref q =>
      rw [hpc] at holds
      have control := (wf.threads u).control
      rw [hpc] at control
      refine holds.mono (by rw [foreign own]) (fun c name => ?_) (fun c ne kept => ?_)
        fun w ne precedes => ?_
      · rcases ((actEffect_hdr act).wsObj c).1 with mine | same
        · exact mine
        · exact same.trans name
      · rw [foreign own]
        exact keeps own control.1 kept
      · rw [foreign own]
        by_cases here : w = t
        · rw [here, self]
          exact actEffect_precedes act (lending.version_le u) (here ▸ precedes)
        · rw [foreign here]
          exact precedes
    | _ => trivial

/-- No step of a log's owner takes a copy from a section that was given it. -/
theorem reachable_lending {ok : State ω → Act ω → Prop}
    (right : ∀ s a, ok s a → RightSlot s a ∧ PassesHeld s a)
    (h : System.Reachable Init (step cfg) ok s) : Lending s := by
  refine System.Reachable.invariant_of Lending
    (fun s h => And.intro (reachable_wellFormed (fun s a allowed => (right s a allowed).1) h)
      (And.intro (reachable_fresh h) (And.intro (reachable_owners h) fun w =>
        reachable_locksOf (t := w) (fun s a allowed _ => (right s a allowed).1) h)))
    ?_ (fun s a s' known _ lending allowed hs =>
      step_lending known.1 known.2.1 known.2.2.1 known.2.2.2 lending (right s a allowed).2 hs) h
  rintro _ ⟨obj, rfl⟩
  exact ⟨fun u kind => absurd rfl kind, fun u kind => absurd kind nofun, fun u => Nat.le_refl _,
    fun u v pc => absurd pc nofun, fun u odd => absurd odd Nat.zero_ne_one, fun u => trivial⟩

end Step

end ReadLogUpdate
