import ReadLogUpdate.Rlu.Alone
import ReadLogUpdate.Rlu.Frees
import ReadLogUpdate.Rlu.Ownership

/-!
# What an abort undoes

A section of one thread from any state in which it can begin, with any tail counter, beside
steps of other threads that leave its record and its locks alone; and the abort at its end.
-/

namespace ReadLogUpdate

variable {ω : Type}

/-- Thread `t` is in a section in which it has done nothing yet. Of the ring only the slot of
the current write set matters. -/
structure SectionStart (t : Nat) (s : State ω) : Prop where
  known : t < s.gCurThreads
  inSection : (s.thread t).pc = .inSection
  odd : (s.thread t).runCounter % 2 = 1
  curId : (s.thread t).wsCurId = wsIndex (s.thread t).wsTailCounter
  undetected : (s.thread t).isWriteDetected = false
  empty : (s.thread t).cur.Empty
  unlocked : ∀ o c, s.hdr o = .copy c → c.owner = t → c.slot ≠ (s.thread t).wsCurId
  released : ∀ l, s.gWriterLocks l ≠ lockId t

/-- What other threads may do between two steps of thread `t`. -/
structure Elsewhere (t : Nat) (s s' : State ω) : Prop where
  known : s.gCurThreads ≤ s'.gCurThreads
  thread : s'.thread t = s.thread t
  hdr : ∀ o c, c.owner = t → (s'.hdr o = .copy c ↔ s.hdr o = .copy c)
  locks : ∀ l, s'.gWriterLocks l = lockId t ↔ s.gWriterLocks l = lockId t

/-- A section of thread `t`: its own calls and their steps, as long as they stay inside it. -/
inductive SectionRun [Inhabited ω] (cfg : Config) (t : Nat) (s₀ : State ω) : State ω → Prop
  | start : SectionRun cfg t s₀ s₀
  | own {s s' : State ω} {a : Act ω} : SectionRun cfg t s₀ s → (a = .lib t ∨ ∃ op, a = .call t op) →
      step cfg s a = some s' → (s'.thread t).pc.kind.inside = true → SectionRun cfg t s₀ s'
  | elsewhere {s s' : State ω} : SectionRun cfg t s₀ s → Elsewhere t s s' → SectionRun cfg t s₀ s'

/-- The headers, the writer locks and the log in a section of thread `t` that began in `s₀`. -/
structure InSection (t : Nat) (s₀ : State ω) (hdr : Nat → PObjCopy) (writerLocks : Nat → Nat)
    (th : Thread ω) : Prop where
  odd : th.runCounter % 2 = 1
  window : th.window = (s₀.thread t).window
  others : ∀ slot, slot ≠ th.wsCurId → th.objWriteSet slot = (s₀.thread t).objWriteSet slot
  entries : ∀ i, i < th.cur.numOfObjs + th.pc.extra →
    (th.cur.buffer i).pObjCopy = .ptrIdObjCopy ∧
    hdr (th.cur.buffer i).pObjActual = .copy ⟨t, th.wsCurId, i⟩
  own : ∀ o c, hdr o = .copy c → c.owner = t → s₀.hdr o = .copy c ∨
    c.slot = th.wsCurId ∧ c.idx < th.cur.numOfObjs + th.pc.extra ∧
      (th.cur.buffer c.idx).pObjActual = o
  kept : ∀ o c, s₀.hdr o = .copy c → c.owner = t → hdr o = .copy c
  locks : ∀ l, writerLocks l = lockId t ↔ l ∈ th.cur.writerLocks
  nodup : th.cur.writerLocks.Nodup
  clean : th.isWriteDetected = false → th.cur.numOfObjs = 0 ∧ th.cur.pCur = 0
  control : ∀ q, th.pc = .tryLock q → tryLockControl t th q

variable {cfg : Config} {t : Nat} {s₀ s : State ω} {hdr hdr' : Nat → PObjCopy}
  {writerLocks writerLocks' : Nat → Nat} {th th' : Thread ω}

theorem SectionStart.begins (h : SectionStart t s) :
    InSection t s s.hdr s.gWriterLocks (s.thread t) where
  odd := h.odd
  window := rfl
  others _ _ := rfl
  entries i lt := by
    rw [h.empty.1, h.inSection] at lt
    exact absurd lt (Nat.not_lt_zero i)
  own _ _ held _ := .inl held
  kept _ _ held _ := held
  locks l := by
    rw [h.empty.2.2]
    exact iff_of_false (h.released l) List.not_mem_nil
  nodup := by
    rw [h.empty.2.2]
    exact List.nodup_nil
  clean _ := ⟨h.empty.1, h.empty.2.1⟩
  control q pc := by
    rw [h.inSection] at pc
    cases pc

theorem InSection.elsewhere (h : InSection t s₀ hdr writerLocks th)
    (same : ∀ o c, c.owner = t → (hdr' o = .copy c ↔ hdr o = .copy c))
    (same' : ∀ l, writerLocks' l = lockId t ↔ writerLocks l = lockId t) :
    InSection t s₀ hdr' writerLocks' th :=
  { h with
    entries := fun i lt => ⟨(h.entries i lt).1, (same _ _ rfl).mpr (h.entries i lt).2⟩
    own := fun o c held mine => h.own o c ((same o c mine).mp held) mine
    kept := fun o c held mine => (same o c mine).mpr (h.kept o c held mine)
    locks := fun l => (same' l).trans (h.locks l) }

/-- A step that leaves the locks and the counted entries alone. -/
theorem InSection.keep (h : InSection t s₀ hdr writerLocks th)
    (run : th'.runCounter = th.runCounter) (window : th'.window = th.window)
    (others : ∀ slot, slot ≠ th.wsCurId → th'.objWriteSet slot = th.objWriteSet slot)
    (count : th'.cur.numOfObjs + th'.pc.extra = th.cur.numOfObjs + th.pc.extra)
    (locks : th'.cur.writerLocks = th.cur.writerLocks)
    (entries : ∀ i, i < th.cur.numOfObjs + th.pc.extra →
      (th'.cur.buffer i).pObjCopy = (th.cur.buffer i).pObjCopy ∧
      (th'.cur.buffer i).pObjActual = (th.cur.buffer i).pObjActual)
    (clean : th'.isWriteDetected = false → th'.cur.numOfObjs = 0 ∧ th'.cur.pCur = 0)
    (control : ∀ q, th'.pc = .tryLock q → tryLockControl t th' q) :
    InSection t s₀ hdr writerLocks th' := by
  have cur := (Thread.window_eq window).2.2.2
  constructor
  · rw [run]
    exact h.odd
  · exact window.trans h.window
  · rw [cur]
    exact fun slot ne => (others slot ne).trans (h.others slot ne)
  · rw [cur, count]
    intro i lt
    rw [(entries i lt).1, (entries i lt).2]
    exact h.entries i lt
  · rw [cur, count]
    intro o c held mine
    refine (h.own o c held mine).imp_right ?_
    rintro ⟨slot, lt, actual⟩
    exact ⟨slot, lt, (entries _ lt).2.trans actual⟩
  · exact h.kept
  · rw [locks]
    exact h.locks
  · rw [locks]
    exact h.nodup
  · exact clean
  · exact control

theorem InSection.go (h : InSection t s₀ hdr writerLocks th)
    (run : th'.runCounter = th.runCounter) (window : th'.window = th.window)
    (log : th'.objWriteSet = th.objWriteSet) (extra : th'.pc.extra = th.pc.extra)
    (clean : th'.isWriteDetected = false → th.isWriteDetected = false)
    (control : ∀ q, th'.pc = .tryLock q → tryLockControl t th' q) :
    InSection t s₀ hdr writerLocks th' := by
  have cur : th'.cur = th.cur := by
    unfold Thread.cur
    rw [log, (Thread.window_eq window).2.2.2]
  exact h.keep run window (fun _ _ => by rw [log]) (by rw [cur, extra]) (by rw [cur])
    (fun i _ => by rw [cur]; exact ⟨rfl, rfl⟩) (fun e => by rw [cur]; exact h.clean (clean e)) control

/-- A step that rewrites the current write set and keeps its counted entries. -/
theorem InSection.setCur {ws : WriteSet ω} {pc : Pc} (h : InSection t s₀ hdr writerLocks th)
    (count : ws.numOfObjs + pc.extra = th.cur.numOfObjs + th.pc.extra)
    (locks : ws.writerLocks = th.cur.writerLocks)
    (entries : ∀ i, i < th.cur.numOfObjs + th.pc.extra →
      (ws.buffer i).pObjCopy = (th.cur.buffer i).pObjCopy ∧
      (ws.buffer i).pObjActual = (th.cur.buffer i).pObjActual)
    (clean : th.isWriteDetected = false → ws.numOfObjs = 0 ∧ ws.pCur = 0)
    (control : ∀ q, pc = .tryLock q →
      tryLockControl t { th.setWriteSet th.wsCurId ws with pc := pc } q) :
    InSection t s₀ hdr writerLocks { th.setWriteSet th.wsCurId ws with pc := pc } := by
  have cur : Thread.cur { th.setWriteSet th.wsCurId ws with pc := pc } = ws :=
    Function.update_self _ _ _
  exact h.keep rfl rfl (fun slot ne => Function.update_of_ne ne _ _) (by rw [cur, count])
    (by rw [cur, locks]) (by rwa [cur]) (fun e => by rw [cur]; exact clean e) control

theorem InSection.next {pc : Pc} (h : InSection t s₀ hdr writerLocks th)
    (extra : pc.extra = th.pc.extra) (control : ∀ q, pc = .tryLock q → tryLockControl t th q) :
    InSection t s₀ hdr writerLocks (th.go pc).1 :=
  h.go rfl rfl rfl extra id fun q e => by cases q <;> exact control _ e

theorem InSection.fail {line : Nat} (h : InSection t s₀ hdr writerLocks th) :
    InSection t s₀ hdr writerLocks (th.fail line).1 :=
  h.next rfl nofun

theorem InSection.fault (h : InSection t s₀ hdr writerLocks th) :
    InSection t s₀ hdr writerLocks th.fault.1 :=
  h.next rfl nofun

/-! ### The steps of a section -/

abbrev InSectionAfter (t : Nat) (s₀ s : State ω) (e : Effect ω) : Prop :=
  InSection t s₀ (s.apply t e.1 e.2).hdr (s.apply t e.1 e.2).gWriterLocks e.1

theorem derefStep_inSection {pc : DerefPc} (h : InSection t s₀ s.hdr s.gWriterLocks th)
    (hpc : th.pc = .deref pc) : InSectionAfter t s₀ s (derefStep s t th pc) := by
  have next (pc' : Pc) (extra : pc'.extra = 0) (outside : ∀ q, pc' ≠ .tryLock q) :
      InSection t s₀ s.hdr s.gWriterLocks (th.go pc').1 :=
    h.next (by rw [hpc, extra]; rfl) fun q e => absurd e (outside q)
  have done {p r : Ptr} : InSection t s₀ s.hdr s.gWriterLocks (derefReturn th p r).1 :=
    h.go rfl rfl rfl (by rw [hpc]; rfl) id (by rintro _ ⟨⟩)
  cases pc <;> simp only [derefStep] <;> (repeat' split) <;>
    first | exact done | exact next _ rfl (by rintro _ ⟨⟩)

theorem writerLockStep_inSection {pc : WriterLockPc} (h : InSection t s₀ s.hdr s.gWriterLocks th)
    (hpc : th.pc = .writerLock pc) : InSectionAfter t s₀ s (writerLockStep s t th pc) := by
  have extra : th.pc.extra = 0 := by rw [hpc]; rfl
  cases pc with
  | load l =>
    simp only [writerLockStep]
    split_ifs <;> exact h.next (by rw [hpc]; rfl) (by rintro _ ⟨⟩)
  | cas l =>
    simp only [writerLockStep]
    split_ifs with free held room
    -- a lock that is free is not in the list
    · rw [(h.locks l).mpr held] at free
      cases free
    all_goals try exact h.next (by rw [hpc]; rfl) (by rintro _ ⟨⟩)
    all_goals
      have added {pc : Pc} (none : pc.extra = 0) (out : ∀ q, pc ≠ .tryLock q) :
          InSection t s₀ s.hdr (Function.update s.gWriterLocks l (lockId t))
            { th.setWriteSet th.wsCurId (th.cur.addWriterLock l) with pc := pc } := by
        have cur : Thread.cur { th.setWriteSet th.wsCurId (th.cur.addWriterLock l) with pc := pc } =
            th.cur.addWriterLock l := Function.update_self _ _ _
        have count : th.cur.numOfObjs + pc.extra = th.cur.numOfObjs + th.pc.extra := by
          rw [none, extra]
        refine ⟨h.odd, h.window, fun slot ne => ?_, ?_, ?_, h.kept, fun l' => ?_, ?_, ?_,
          fun q e => absurd e (out q)⟩
        · exact (Function.update_of_ne ne _ _).trans (h.others slot ne)
        · rw [cur]
          exact fun i lt => h.entries i (count ▸ lt)
        · rw [cur]
          exact fun o c own mine => (h.own o c own mine).imp_right fun entry =>
            ⟨entry.1, count.symm ▸ entry.2.1, entry.2.2⟩
        · rw [cur]
          rw [WriteSet.addWriterLock_writerLocks]
          show Function.update s.gWriterLocks l (lockId t) l' = lockId t ↔ _
          by_cases eq : l' = l
          · simp [eq]
          · rw [Function.update_of_ne eq, h.locks l']
            simp [eq]
        · rw [cur, WriteSet.addWriterLock_writerLocks]
          exact List.nodup_append.mpr ⟨h.nodup, List.pairwise_singleton _ l, fun a mem b mem' e =>
            held (by rw [← List.mem_singleton.mp mem', ← e]; exact mem)⟩
        · rw [cur]
          exact h.clean
    · exact added rfl (by rintro _ ⟨⟩)
    · exact added (by rw [hpc]; rfl) (by rintro _ ⟨⟩)

/-- A store into the header of the entry that is not counted yet. -/
theorem InSection.storeHeader {pc : TryLockPc} {f : WsObj ω → WsObj ω} {p : Nat}
    (h : InSection t s₀ hdr writerLocks th) (extra : th.pc.extra = 0)
    (extra' : (Pc.tryLock pc).extra = 0) (detected : th.isWriteDetected = true)
    (control : tryLockControl t
      (th.storeHeader f p) pc) :
    InSection t s₀ hdr writerLocks ((th.storeHeader f p).go (.tryLock pc)).1 := by
  refine h.setCur (by rw [extra, extra']; rfl) rfl (fun i lt => ?_)
    (fun clean => by rw [detected] at clean; cases clean) fun q e => ?_
  · rw [extra] at lt
    have same : (th.cur.storeHeader th.cur.numOfObjs f p).buffer i = th.cur.buffer i :=
      WriteSet.modifyObj_buffer_of_ne _ _ (Nat.ne_of_lt lt)
    rw [same]
    exact ⟨rfl, rfl⟩
  · cases e
    cases pc <;> exact control

theorem tryLockStep_inSection {pc : TryLockPc} (h : InSection t s₀ s.hdr s.gWriterLocks th)
    (hpc : th.pc = .tryLock pc) : InSectionAfter t s₀ s (tryLockStep cfg s t th pc) := by
  have control := h.control pc hpc
  have next {pc' : TryLockPc} (extra : (Pc.tryLock pc').extra = th.pc.extra)
      (control : tryLockControl t th pc') :
      InSection t s₀ s.hdr s.gWriterLocks (th.go (.tryLock pc')).1 :=
    h.next extra fun q e => by cases e; exact control
  have done {c : CopyAddr} (extra : th.pc.extra = 0) :
      InSection t s₀ s.hdr s.gWriterLocks (tryLockReturn th c).1 :=
    h.go rfl rfl rfl (by rw [extra]; rfl) id (by rintro _ ⟨⟩)
  cases pc with
  | header p =>
    have extra : th.pc.extra = 0 := by rw [hpc]; rfl
    cases p with
    | null => exact h.fault
    | copy c =>
      simp only [tryLockStep]
      split_ifs
      · exact next extra.symm trivial
      · exact h.fault
    | actual o =>
      simp only [tryLockStep, tryLockFree]
      repeat' split
      · exact next extra.symm ‹_›
      · exact h.go rfl rfl rfl extra.symm (by rintro ⟨⟩) fun q e => by cases e; rfl
      · exact h.fault
      · exact next extra.symm trivial
  | actual c => exact next (by rw [hpc]; rfl) trivial
  | owner o c =>
    simp only [tryLockStep]
    split_ifs <;> exact next (by rw [hpc]; rfl) trivial
  | runCounter o c =>
    simp only [tryLockStep]
    split_ifs
    · exact done (by rw [hpc]; rfl)
    · exact next (by rw [hpc]; rfl) trivial
  | sendLoad thId => exact next (by rw [hpc]; rfl) trivial
  | sendStore thId v => exact next (show (Pc.tryLock .syncLoad).extra = _ by rw [hpc]; rfl) trivial
  | syncLoad => exact next (by rw [hpc]; rfl) trivial
  | syncStore v =>
    simp only [tryLockStep, tryLockFail]
    split_ifs
    · exact h.fail
    · exact h.next (by rw [hpc]; rfl) (by rintro _ ⟨⟩)
  | storeActual o =>
    simp only [tryLockStep]
    split_ifs
    · refine h.storeHeader (by rw [hpc]; rfl) rfl control ⟨control, ?_⟩
      simp [Thread.storeHeader, WriteSet.storeHeader, Thread.setWriteSet, Thread.cur]
    · exact h.fault
  | storeRun o =>
    refine h.storeHeader (by rw [hpc]; rfl) rfl control.1 ⟨control.1, ?_⟩
    simpa [Thread.storeHeader, WriteSet.storeHeader, Thread.setWriteSet, Thread.cur] using control.2
  | storeId o =>
    refine h.storeHeader (by rw [hpc]; rfl) rfl control.1 ⟨control.1, ?_⟩
    simpa [Thread.storeHeader, WriteSet.storeHeader, Thread.setWriteSet, Thread.cur] using control.2
  | storeMark o =>
    refine h.storeHeader (by rw [hpc]; rfl) rfl control.1 ⟨control.1, ?_⟩
    simpa [Thread.storeHeader, WriteSet.storeHeader, Thread.setWriteSet, Thread.cur, and_assoc] using control.2
  | cas o =>
    have extra : th.pc.extra = 0 := by rw [hpc]; rfl
    simp only [tryLockStep]
    split_ifs with free
    · -- the object gets the copy that is filled in next
      obtain ⟨detected, actual, run, id, mark⟩ := control
      refine ⟨h.odd, h.window, h.others, fun i lt => ?_, fun o' c held mine => ?_,
        fun o' c held mine => ?_, h.locks, h.nodup, h.clean, ?_⟩
      · show (th.cur.buffer i).pObjCopy = .ptrIdObjCopy ∧
          Function.update s.hdr o (.copy (th.nextCopy t)) (th.cur.buffer i).pObjActual =
            .copy ⟨t, th.wsCurId, i⟩
        have lt' : i < th.cur.numOfObjs + 1 := lt
        rcases Nat.lt_succ_iff_lt_or_eq.mp lt' with lt | rfl
        · obtain ⟨mark, held⟩ := h.entries i (Nat.lt_add_right _ lt)
          refine ⟨mark, ?_⟩
          rw [Function.update_of_ne, held]
          intro e
          rw [e, free] at held
          cases held
        · rw [actual, Function.update_self]
          exact ⟨mark, rfl⟩
      · have held' : Function.update s.hdr o (.copy (th.nextCopy t)) o' = .copy c := held
        by_cases eq : o' = o
        · rw [eq, Function.update_self] at held'
          cases held'
          exact .inr ⟨rfl, Nat.lt_succ_self _, actual.trans eq.symm⟩
        · rw [Function.update_of_ne eq] at held'
          refine (h.own o' c held' mine).imp_right fun entry => ⟨entry.1, ?_, entry.2.2⟩
          have lt := entry.2.1
          rw [extra] at lt
          exact Nat.lt_succ_of_lt lt
      · have held' := h.kept o' c held mine
        show Function.update s.hdr o (.copy (th.nextCopy t)) o' = .copy c
        rw [Function.update_of_ne, held']
        rintro rfl
        rw [free] at held'
        cases held'
      · intro q e
        cases e
        exact ⟨detected, actual, run, id, mark⟩
    · unfold tryLockFail
      split_ifs
      · exact h.fail
      · exact h.next (by rw [extra]; rfl) (by rintro _ ⟨⟩)
  | copy o w =>
    have extra : th.pc.extra = 1 := by rw [hpc]; rfl
    simp only [tryLockStep]
    split_ifs
    · refine h.setCur (by rw [extra]; rfl) rfl (fun i lt => ?_) h.clean fun q e => ?_
      · by_cases eq : i = th.cur.numOfObjs
        · subst eq
          rw [WriteSet.modifyObj_buffer_self]
          exact ⟨rfl, rfl⟩
        · rw [WriteSet.modifyObj_buffer_of_ne _ _ eq]
          exact ⟨rfl, rfl⟩
      · cases e
        simpa [tryLockControl, Thread.modifyObj, Thread.setWriteSet, Thread.cur] using control
    · exact h.fault
    · refine h.setCur (by rw [extra]; rfl) rfl (fun i lt => ⟨rfl, rfl⟩) (fun e => ?_) fun q e => ?_
      · rw [control.1] at e
        cases e
      · cases e
        exact ⟨by simp [Thread.setWriteSet, Thread.cur, WriteSet.addObj],
          by simpa [Thread.setWriteSet, Thread.cur, WriteSet.addObj] using control.2.1, control.1⟩
    · exact h.fail
  | check o =>
    simp only [tryLockStep]
    split_ifs
    · exact done (by rw [hpc]; rfl)
    · exact h.fail

theorem callInSection_inSection {op : Op ω} {e : Effect ω}
    (h : InSection t s₀ s.hdr s.gWriterLocks th) (hpc : th.pc = .inSection)
    (called : callInSection cfg s t th op = some e) (inside : e.1.pc.kind.inside = true) :
    InSectionAfter t s₀ s e := by
  have next (pc' : Pc) (extra : pc'.extra = 0) (control : ∀ q, pc' = .tryLock q →
      tryLockControl t th q) : InSection t s₀ s.hdr s.gWriterLocks (th.go pc').1 :=
    h.next (by rw [hpc, extra]; rfl) control
  cases op with
  | readerLock | checkpoint | finish => cases called
  | readerUnlock | abort =>
    obtain rfl := Option.some.inj called
    unfold rluUnregisterThread at inside
    split_ifs at inside <;> cases inside
  | deref p =>
    simp only [callInSection, ← apply_ite some, Option.some.injEq] at called
    subst called
    split_ifs
    · exact h.go rfl rfl rfl (by rw [hpc]; rfl) id (by rintro _ ⟨⟩)
    · exact next _ rfl (by rintro _ ⟨⟩)
  | tryLock p | lock p =>
    simp only [callInSection, ← apply_ite some, Option.some.injEq] at called
    subst called
    split_ifs <;> first
      | exact h.fail
      | exact h.go rfl rfl rfl (by rw [hpc]; rfl) id fun q e => by cases e; trivial
  | tryWriterLock l =>
    simp only [callInSection, ← apply_ite some, Option.some.injEq] at called
    subst called
    split_ifs
    · exact next _ rfl (by rintro _ ⟨⟩)
    · exact h.fail
  | store c w x =>
    simp only [callInSection] at called
    split_ifs at called with own
    obtain rfl := Option.some.inj called
    obtain ⟨-, slot, -⟩ := own
    rw [slot]
    refine h.setCur (by rw [hpc]; rfl) rfl (fun i lt => ?_) h.clean (by rintro _ ⟨⟩)
    by_cases eq : i = c.idx
    · subst eq
      rw [WriteSet.modifyObj_buffer_self]
      exact ⟨rfl, rfl⟩
    · rw [WriteSet.modifyObj_buffer_of_ne _ _ eq]
      exact ⟨rfl, rfl⟩
  | free p =>
    obtain rfl := Option.some.inj called
    unfold rluFree at inside ⊢
    split
    · exact next _ rfl (by rintro _ ⟨⟩)
    · split_ifs
      · exact h.go rfl rfl rfl (by rw [hpc]; rfl) id (by rintro _ ⟨⟩)
      · exact h.go rfl rfl rfl rfl id (by rintro _ ⟨⟩)
      · exact h.fail
    · exact h.fault

theorem SectionRun.inSection [Inhabited ω] (start : SectionStart t s₀)
    (ran : SectionRun cfg t s₀ s) : t < s.gCurThreads ∧ (s.thread t).pc.kind.inside = true ∧
      InSection t s₀ s.hdr s.gWriterLocks (s.thread t) := by
  induction ran with
  | start => exact ⟨start.known, by rw [start.inSection]; rfl, start.begins⟩
  | elsewhere _ env ih =>
    obtain ⟨known, inside, h⟩ := ih
    rw [env.thread]
    exact ⟨Nat.lt_of_lt_of_le known env.known, inside, h.elsewhere env.hdr env.locks⟩
  | @own s s' a _ mine stepped inside' ih =>
    obtain ⟨known, inside, h⟩ := ih
    obtain ⟨e, act, rfl⟩ : ∃ e, ActEffect cfg s a t e ∧ s' = s.apply t e.1 e.2 := by
      rcases step_cases stepped with ⟨rfl, -⟩ | ⟨u, e, -, act, rfl⟩
      · rcases mine with eq | ⟨op, eq⟩ <;> cases eq
      · refine ⟨e, ?_⟩
        rcases act with ⟨op, rfl, called⟩ | ⟨rfl, libbed⟩
        · rcases mine with eq | ⟨op', eq⟩ <;> cases eq
          exact ⟨.inl ⟨op, rfl, called⟩, rfl⟩
        · rcases mine with eq | ⟨op', eq⟩ <;> cases eq
          exact ⟨.inr ⟨rfl, libbed⟩, rfl⟩
    have own : (s.apply t e.1 e.2).thread t = e.1 := by
      rw [State.apply_thread, Function.update_self]
    rw [own] at inside' ⊢
    refine ⟨by rwa [State.apply_gCurThreads], inside', ?_⟩
    cases hpc : (s.thread t).pc with
    | inSection =>
      rcases act with ⟨op, -, called⟩ | ⟨-, libbed⟩
      · rw [hpc] at called
        exact callInSection_inSection h hpc called inside'
      · rw [hpc] at libbed
        cases libbed
    | mustAbort =>
      rcases act with ⟨op, -, called⟩ | ⟨-, libbed⟩
      · rw [hpc] at called
        cases op with
        | abort =>
          obtain rfl := Option.some.inj called
          unfold rluUnregisterThread at inside'
          split_ifs at inside' <;> cases inside'
        | _ => cases called
      · rw [hpc] at libbed
        cases libbed
    | deref q =>
      obtain ⟨-, libbed⟩ := act.lib (by rw [hpc]; rfl)
      rw [hpc] at libbed
      obtain rfl := Option.some.inj libbed
      exact derefStep_inSection h hpc
    | tryLock q =>
      obtain ⟨-, libbed⟩ := act.lib (by rw [hpc]; rfl)
      rw [hpc] at libbed
      obtain rfl := Option.some.inj libbed
      exact tryLockStep_inSection h hpc
    | writerLock q =>
      obtain ⟨-, libbed⟩ := act.lib (by rw [hpc]; rfl)
      rw [hpc] at libbed
      obtain rfl := Option.some.inj libbed
      exact writerLockStep_inSection h hpc
    | _ =>
      rw [hpc] at inside
      cases inside

/-! ### The abort -/

def State.LockedSince (s₀ s : State ω) (t o : Nat) : Prop :=
  ∃ c, c.owner = t ∧ s.hdr o = .copy c ∧ s₀.hdr o ≠ .copy c

/-- `s'` is `s` with what the section that began in `s₀` locked undone. -/
structure AbortRestores (t : Nat) (s₀ s s' : State ω) : Prop where
  unlocked : ∀ o, s₀.LockedSince s t o → s'.hdr o = .null
  kept : ∀ o, ¬ s₀.LockedSince s t o → s'.hdr o = s.hdr o
  contents : s'.obj = s.obj
  released : ∀ l, s.gWriterLocks l = lockId t → s'.gWriterLocks l = 0
  held : ∀ l, s.gWriterLocks l ≠ lockId t → s'.gWriterLocks l = s.gWriterLocks l
  empty : (s'.thread t).cur.Empty
  window : (s'.thread t).window = (s.thread t).window
  others : ∀ slot, slot ≠ (s.thread t).wsCurId →
    (s'.thread t).objWriteSet slot = (s.thread t).objWriteSet slot

/-- The abort, called in `s`, gets to its final checkpoint and restores what it has to. -/
def AbortUndoes [Inhabited ω] (cfg : Config) (t : Nat) (s₀ s : State ω) : Prop :=
  ∃ s₁, step cfg s (.call t .abort) = some s₁ ∧
    System.Leads (step cfg) (fun _ _ => True) (.lib t) s₁ fun s' =>
      (s'.thread t).pc = .syncCheckpoint .abort ∧ AbortRestores t s₀ s s'

/-- `rlu_unlock_objs` is not called, or gets the index of the current write set through its
`int` parameter, or both write sets are empty. -/
def Thread.FindsWriteSet (th : Thread ω) : Prop :=
  th.isWriteDetected = false ∨ th.RightSlot ∨
  ∃ slot : Nat, wsIndexInt (toInt32 th.wsTailCounter) = slot ∧
    (th.objWriteSet slot).numOfObjs = 0 ∧ th.cur.numOfObjs = 0

def Thread.unregistered (th : Thread ω) : Thread ω := { th with runCounter := th.runCounter + 1 }

def Thread.cleared (th : Thread ω) : Thread ω := { th.unregistered with isWriteDetected := false }

section Abort
variable [Inhabited ω]

theorem step_abort (known : t < s.gCurThreads) (odd : (s.thread t).runCounter % 2 = 1)
    (ready : (s.thread t).pc = .inSection ∨ (s.thread t).pc = .mustAbort) :
    step cfg s (.call t .abort) =
      some (s.withThread t ((s.thread t).unregistered.atPc (.abort .start))) := by
  have called : call cfg s t (s.thread t) .abort (s.thread t).pc =
      some ((s.thread t).unregistered.atPc (.abort .start), .none) := by
    rcases ready with pc | pc <;> rw [pc] <;>
      simp only [call, callInSection, rluUnregisterThread, if_pos odd] <;> rfl
  simp only [step, if_pos known, called, Option.map_some]
  rfl

theorem step_abortStart (known : t < s.gCurThreads) (detected : th.isWriteDetected = true) :
    step cfg (s.withThread t (th.unregistered.atPc (.abort .start))) (.lib t) =
      some (s.withThread t (th.cleared.atPc (match wsIndexInt (toInt32 th.wsTailCounter) with
        | .ofNat slot => .abort (.unlock slot 0)
        | .negSucc _ => .fault (.abort .start)))) := by
  have stepped : libStep cfg (s.withThread t (th.unregistered.atPc (.abort .start))) t
      (th.unregistered.atPc (.abort .start)) (.abort .start) =
        some (th.cleared.atPc (match wsIndexInt (toInt32 th.wsTailCounter) with
          | .ofNat slot => .abort (.unlock slot 0)
          | .negSucc _ => .fault (.abort .start)), .none) := by
    simp only [libStep, abortStep, Thread.atPc_isWriteDetected, Thread.atPc_wsTailCounter,
      show th.unregistered.isWriteDetected = true from detected, if_true,
      show th.unregistered.wsTailCounter = th.wsTailCounter from rfl]
    generalize wsIndexInt (toInt32 th.wsTailCounter) = index
    cases index <;> rfl
  simp only [step, State.withThread_gCurThreads, if_pos known, State.withThread_thread,
    Thread.atPc_pc, stepped, Option.map_some, State.write_withThread]
  rfl

omit [Inhabited ω] in
theorem InSection.curId (start : SectionStart t s₀) (h : InSection t s₀ hdr writerLocks th) :
    th.wsCurId = wsIndex th.wsTailCounter := by
  obtain ⟨-, -, tail, cur⟩ := Thread.window_eq h.window
  rw [tail, cur]
  exact start.curId

omit [Inhabited ω] in
/-- The entries of the write set are what the section locked. -/
theorem InSection.lockedSince_iff (start : SectionStart t s₀)
    (h : InSection t s₀ s.hdr s.gWriterLocks (s.thread t)) (extra : (s.thread t).pc.extra = 0)
    (o : Nat) : s₀.LockedSince s t o ↔
      ∃ i, i < (s.thread t).cur.numOfObjs ∧ ((s.thread t).cur.buffer i).pObjActual = o := by
  have cur := (Thread.window_eq h.window).2.2.2
  constructor
  · rintro ⟨c, mine, held, new⟩
    rcases h.own o c held mine with old | ⟨-, lt, actual⟩
    · exact absurd old new
    · exact ⟨c.idx, by omega, actual⟩
  · rintro ⟨i, lt, rfl⟩
    refine ⟨_, rfl, (h.entries i (by omega)).2, fun old => ?_⟩
    exact start.unlocked _ _ old rfl cur

omit [Inhabited ω] in
/-- What is left after the unlock loop and the release of the writer locks. -/
theorem InSection.restores {r : Releaser} (start : SectionStart t s₀)
    (h : InSection t s₀ s.hdr s.gWriterLocks (s.thread t)) (extra : (s.thread t).pc.extra = 0)
    (log : th.objWriteSet = (s.thread t).objWriteSet) (window : th.window = (s.thread t).window)
    (unlocked : ∀ i, i < (s.thread t).cur.numOfObjs →
      hdr ((s.thread t).cur.buffer i).pObjActual = .null)
    (others : ∀ o, (∀ i, i < (s.thread t).cur.numOfObjs →
      ((s.thread t).cur.buffer i).pObjActual ≠ o) → hdr o = s.hdr o)
    (releaser : r = .abortWrite ∨
      r = .abortClean ∧ (s.thread t).cur.numOfObjs = 0 ∧ (s.thread t).cur.pCur = 0) :
    AbortRestores t s₀ s (((s.withHdr hdr).withLocks fun l =>
      if l ∈ (th.objWriteSet (releaserSlot th r)).writerLocks then 0
      else s.gWriterLocks l).withThread t (afterRelease th r).1) := by
  obtain ⟨-, -, tail, cur⟩ := Thread.window_eq window
  have curId := h.curId start
  have slot : th.objWriteSet (releaserSlot th r) = (s.thread t).cur := by
    rcases releaser with rfl | ⟨rfl, -⟩ <;> simp only [releaserSlot, log, cur, Thread.cur]
  have log' : ∃ ws : WriteSet ω, (afterRelease th r).1.objWriteSet =
      Function.update (s.thread t).objWriteSet (s.thread t).wsCurId ws ∧ ws.Empty := by
    rcases releaser with rfl | ⟨rfl, none, start⟩
    · refine ⟨(s.thread t).cur.reset, ?_, rfl, rfl, rfl⟩
      show Function.update th.objWriteSet (wsIndex th.wsTailCounter) _ = _
      rw [log, tail, ← curId]
      rfl
    · refine ⟨(s.thread t).cur.resetWriterLocks, ?_, none, start, rfl⟩
      show Function.update th.objWriteSet th.wsCurId _ = _
      rw [log, cur]
      rfl
  have window' : (afterRelease th r).1.window = th.window := by
    rcases releaser with rfl | ⟨rfl, -⟩ <;> rfl
  obtain ⟨ws, log', empty⟩ := log'
  have cur' : (afterRelease th r).1.cur = ws := by
    unfold Thread.cur
    rw [(Thread.window_eq window').2.2.2, cur, log', Function.update_self]
  rw [slot]
  constructor
  · intro o locked
    obtain ⟨i, lt, rfl⟩ := (h.lockedSince_iff start extra o).mp locked
    exact unlocked i lt
  · intro o free
    exact others o fun i lt e => free ((h.lockedSince_iff start extra o).mpr ⟨i, lt, e⟩)
  · rfl
  · intro l held
    exact if_pos ((h.locks l).mp held)
  · intro l free
    exact if_neg fun mem => free ((h.locks l).mpr mem)
  · rw [State.withThread_thread, cur']
    exact empty
  · rw [State.withThread_thread]
    exact window'.trans window
  · intro slot ne
    rw [State.withThread_thread, log', Function.update_of_ne ne]

omit [Inhabited ω] in
theorem afterRelease_pc {r : Releaser} (releaser : r = .abortWrite ∨ r = .abortClean) :
    (afterRelease th r).1.pc = .syncCheckpoint .abort := by
  rcases releaser with rfl | rfl <;> rfl

theorem abortUndoes_of_finds (start : SectionStart t s₀) (known : t < s.gCurThreads)
    (h : InSection t s₀ s.hdr s.gWriterLocks (s.thread t))
    (ready : (s.thread t).pc = .inSection ∨ (s.thread t).pc = .mustAbort)
    (finds : (s.thread t).FindsWriteSet) : AbortUndoes cfg t s₀ s := by
  have extra : (s.thread t).pc.extra = 0 := by rcases ready with pc | pc <;> rw [pc] <;> rfl
  have curId := h.curId start
  refine ⟨_, step_abort known h.odd ready, ?_⟩
  -- the release of the writer locks, from the end of either branch on
  have release {th : Thread ω} {r : Releaser} (hdr : Nat → PObjCopy)
      (log : th.objWriteSet = (s.thread t).objWriteSet) (window : th.window = (s.thread t).window)
      (unlocked : ∀ i, i < (s.thread t).cur.numOfObjs →
        hdr ((s.thread t).cur.buffer i).pObjActual = .null)
      (others : ∀ o, (∀ i, i < (s.thread t).cur.numOfObjs →
        ((s.thread t).cur.buffer i).pObjActual ≠ o) → hdr o = s.hdr o)
      (releaser : r = .abortWrite ∨
        r = .abortClean ∧ (s.thread t).cur.numOfObjs = 0 ∧ (s.thread t).cur.pCur = 0) :
      Alone cfg t ((s.withHdr hdr).withThread t (th.atPc (.release r (.check 0)))) fun s' =>
        (s'.thread t).pc = .syncCheckpoint .abort ∧ AbortRestores t s₀ s s' := by
    have slot : th.objWriteSet (releaserSlot th r) = (s.thread t).cur := by
      rcases releaser with rfl | ⟨rfl, -⟩ <;>
        simp only [releaserSlot, log, (Thread.window_eq window).2.2.2, Thread.cur]
    refine (release_all (s := s.withHdr hdr) known (by rw [slot]; exact h.nodup)
      fun l mem => (h.locks l).mpr (slot ▸ mem)).mono ?_
    rintro s' rfl
    refine ⟨?_, h.restores start extra log window unlocked others releaser⟩
    rw [State.withThread_thread, afterRelease_pc (releaser.imp_right And.left)]
  by_cases detected : (s.thread t).isWriteDetected = true
  · obtain ⟨slot, index, entries⟩ : ∃ slot : Nat,
        wsIndexInt (toInt32 (s.thread t).wsTailCounter) = slot ∧
        (slot = (s.thread t).wsCurId ∨
          ((s.thread t).objWriteSet slot).numOfObjs = 0 ∧ (s.thread t).cur.numOfObjs = 0) := by
      rcases finds with clean | right | ⟨slot, index, none⟩
      · rw [clean] at detected
        cases detected
      · exact ⟨_, right, .inl curId.symm⟩
      · exact ⟨slot, index, .inr none⟩
    have first : step cfg (s.withThread t ((s.thread t).unregistered.atPc (.abort .start))) (.lib t) =
        some (s.withThread t _) := step_abortStart known detected
    rw [index] at first
    refine .head trivial first (Alone.free ?_)
    have log : (s.thread t).cleared.objWriteSet = (s.thread t).objWriteSet := rfl
    have held : ∀ j, 0 ≤ j → j < ((s.thread t).cleared.objWriteSet slot).numOfObjs →
        (((s.thread t).cleared.objWriteSet slot).buffer j).pObjCopy = .ptrIdObjCopy ∧
        s.hdr (((s.thread t).cleared.objWriteSet slot).buffer j).pObjActual =
          .copy ⟨t, slot, j⟩ := by
      intro j _ lt
      rw [log] at lt ⊢
      rcases entries with rfl | ⟨none, -⟩
      · exact h.entries j (Nat.lt_add_right _ lt)
      · omega
    refine (unlock_loop _ (Nat.zero_add _).symm known held).trans ?_
    rintro s' ⟨hdr', rfl, unlocked, others⟩
    refine release hdr' rfl rfl (fun i lt => ?_) (fun o free => ?_) (.inl rfl)
    · rcases entries with rfl | ⟨-, none⟩
      · exact unlocked i (Nat.zero_le i) lt
      · omega
    · refine others o fun j _ lt => ?_
      rw [log] at lt ⊢
      rcases entries with rfl | ⟨none, -⟩
      · exact free j lt
      · omega
  · have clean : (s.thread t).isWriteDetected = false := by simpa using detected
    refine Alone.free ?_
    refine Alone.step ((s.thread t).unregistered.atPc (.release .abortClean (.check 0))) .none known
      ?_ ?_ fun _ e => absurd e detected
    · show some (abortStep _ t _ .start) = _
      simp only [abortStep, Thread.atPc_isWriteDetected,
        show (s.thread t).unregistered.isWriteDetected = false from clean]
      rfl
    · have none := h.clean clean
      exact release s.hdr rfl rfl (fun i lt => by omega) (fun _ _ => rfl) (.inr ⟨rfl, none⟩)

/-! ### An abort that misses its write set -/

/-- Where a thread is once its abort is past the final checkpoint, or cannot go on. -/
def Pc.afterAbort : Pc → Bool
  | .idle | .sync .abort _ | .failed _ _ | .fault _ => true
  | _ => false

omit [Inhabited ω] in
theorem libStep_afterAbort {e : Effect ω} (after : th.pc.afterAbort = true)
    (stepped : libStep cfg s t th th.pc = some e) : e.1.pc.afterAbort = true := by
  have flow := libStep_flow stepped
  cases hpc : th.pc with
  | idle | failed | fault =>
    rw [hpc] at stepped
    cases stepped
  | sync k q =>
    rw [hpc] at after flow
    obtain rfl : k = .abort := by cases k <;> first | rfl | cases after
    cases q <;> cases h : e.1.pc <;>
      simp_all [Pc.nexts, Caller.nexts, Pc.kind, Pc.afterAbort]
  | _ =>
    rw [hpc] at after
    cases after

omit [Inhabited ω] in
/-- From the end of its unlock loop on, an abort leaves every header alone. -/
theorem libStep_releasing {e : Effect ω}
    (releasing : th.pc.kind = .release .abortWrite ∨ th.pc = .syncCheckpoint .abort)
    (stepped : libStep cfg s t th th.pc = some e) :
    (s.apply t e.1 e.2).hdr = s.hdr ∧ (e.1.pc.afterAbort = true ∨
      e.1.pc.kind = .release .abortWrite ∨ e.1.pc = .syncCheckpoint .abort) := by
  rcases releasing with kind | pc
  · cases hpc : th.pc <;> rw [hpc] at kind <;> cases kind
    rename_i q
    rw [hpc] at stepped
    obtain rfl := Option.some.inj stepped
    cases q <;> simp only [releaseStep] <;> (repeat' split) <;>
      first
      | exact ⟨rfl, .inl rfl⟩
      | exact ⟨rfl, .inr (.inl rfl)⟩
      | exact ⟨rfl, .inr (.inr rfl)⟩
  · rw [pc] at stepped
    simp only [libStep, ← apply_ite some, Option.some.injEq] at stepped
    subst stepped
    split_ifs <;> exact ⟨rfl, .inl rfl⟩

omit [Inhabited ω] in
theorem libStep_unlocking {e : Effect ω} {q : AbortPc} (hpc : th.pc = .abort q)
    (ne : q ≠ .start) (stepped : libStep cfg s t th th.pc = some e) :
    (∀ o, s.hdr o = .null → (s.apply t e.1 e.2).hdr o = .null) ∧ (e.1.pc.afterAbort = true ∨
      e.1.pc.kind = .release .abortWrite ∨ ∃ q', e.1.pc = .abort q' ∧ q' ≠ .start) := by
  rw [hpc] at stepped
  obtain rfl := Option.some.inj stepped
  cases q with
  | start => exact absurd rfl ne
  | unlock slot i =>
    simp only [abortStep]
    split_ifs
    · exact ⟨fun _ h => h, .inl rfl⟩
    · exact ⟨fun _ h => h, .inl rfl⟩
    · exact ⟨fun _ h => h, .inr (.inr ⟨_, rfl, by rintro ⟨⟩⟩)⟩
    · exact ⟨fun _ h => h, .inr (.inl rfl)⟩
  | unlockStore slot i =>
    refine ⟨fun o free => ?_, .inr (.inr ⟨_, rfl, by rintro ⟨⟩⟩)⟩
    show Function.update s.hdr _ _ o = _
    by_cases eq : o = ((th.objWriteSet slot).buffer i).pObjActual
    · rw [eq]
      exact Function.update_self _ _ _
    · rwa [Function.update_of_ne eq]

theorem step_lib {s' : State ω} (hs : step cfg s (.lib t) = some s') :
    ∃ e, libStep cfg s t (s.thread t) (s.thread t).pc = some e ∧ s' = s.apply t e.1 e.2 := by
  simp only [step] at hs
  split_ifs at hs
  obtain ⟨e, stepped, rfl⟩ := Option.map_eq_some_iff.mp hs
  exact ⟨e, stepped, rfl⟩

/-- How far an abort is that took another write set for its own: before the first entry of it,
past the unlock of that, or at the end. -/
inductive Astray (t slot : Nat) (th₀ : Thread ω) (s₀ s : State ω) : Prop
  | found (pc : (s.thread t).pc = .abort (.unlock slot 0)) (hdr : s.hdr = s₀.hdr)
      (log : (s.thread t).objWriteSet = th₀.objWriteSet)
  | checked (pc : (s.thread t).pc = .abort (.unlockStore slot 0))
      (log : (s.thread t).objWriteSet = th₀.objWriteSet)
      (own : s₀.hdr ((th₀.objWriteSet slot).buffer 0).pObjActual = .copy ⟨t, slot, 0⟩)
  | unlocked (pc : (∃ q, (s.thread t).pc = .abort q ∧ q ≠ .start) ∨
        (s.thread t).pc.kind = .release .abortWrite ∨ (s.thread t).pc = .syncCheckpoint .abort)
      (own : s₀.hdr ((th₀.objWriteSet slot).buffer 0).pObjActual = .copy ⟨t, slot, 0⟩)
      (free : s.hdr ((th₀.objWriteSet slot).buffer 0).pObjActual = .null)
  | missed (pc : (s.thread t).pc.kind = .release .abortWrite ∨
        (s.thread t).pc = .syncCheckpoint .abort)
      (none : (th₀.objWriteSet slot).numOfObjs = 0) (hdr : s.hdr = s₀.hdr)
  | beyond (pc : (s.thread t).pc.afterAbort = true)

theorem Astray.step {slot : Nat} {th₀ : Thread ω} {s s' : State ω}
    (h : Astray t slot th₀ s₀ s) (hs : step cfg s (.lib t) = some s') :
    Astray t slot th₀ s₀ s' := by
  obtain ⟨e, stepped, rfl⟩ := step_lib hs
  have own : (s.apply t e.1 e.2).thread t = e.1 := by
    rw [State.apply_thread, Function.update_self]
  cases h with
  | found pc hdr log =>
    rw [pc] at stepped
    obtain rfl := Option.some.inj stepped
    simp only [abortStep, log, hdr] at own ⊢
    split_ifs at own ⊢ with entry mark held
    · exact .beyond (by rw [own]; rfl)
    · exact .beyond (by rw [own]; rfl)
    · exact .checked (by rw [own]; rfl) (by rw [own]; exact log) (by simpa using held)
    · exact .missed (.inl (by rw [own]; rfl)) (by omega) hdr
  | checked pc log held =>
    rw [pc] at stepped
    obtain rfl := Option.some.inj stepped
    refine .unlocked (.inl ⟨.unlock slot 1, by rw [own]; rfl, by rintro ⟨⟩⟩) held ?_
    show Function.update s.hdr (((s.thread t).objWriteSet slot).buffer 0).pObjActual .null _ = _
    rw [log]
    exact Function.update_self _ _ _
  | unlocked pc held free =>
    rcases pc with ⟨q, pc, ne⟩ | releasing
    · obtain ⟨kept, next⟩ := libStep_unlocking pc ne stepped
      rcases next with after | releasing | unlocking
      · exact .beyond (by rwa [own])
      · exact .unlocked (.inr (.inl (by rwa [own]))) held (kept _ free)
      · exact .unlocked (.inl (by rwa [own])) held (kept _ free)
    · obtain ⟨kept, after | releasing⟩ := libStep_releasing releasing stepped
      · exact .beyond (by rwa [own])
      · exact .unlocked (.inr (by rwa [own])) held (by rw [kept]; exact free)
  | missed pc none hdr =>
    obtain ⟨kept, after | releasing⟩ := libStep_releasing pc stepped
    · exact .beyond (by rwa [own])
    · exact .missed (by rwa [own]) none (kept.trans hdr)
  | beyond pc => exact .beyond (by rw [own]; exact libStep_afterAbort pc stepped)

theorem finds_of_abortUndoes (start : SectionStart t s₀) (known : t < s.gCurThreads)
    (h : InSection t s₀ s.hdr s.gWriterLocks (s.thread t))
    (ready : (s.thread t).pc = .inSection ∨ (s.thread t).pc = .mustAbort)
    (undoes : AbortUndoes cfg t s₀ s) : (s.thread t).FindsWriteSet := by
  have extra : (s.thread t).pc.extra = 0 := by rcases ready with pc | pc <;> rw [pc] <;> rfl
  obtain ⟨s₁, called, s', repeats, pc, restores⟩ := undoes
  rw [step_abort known h.odd ready] at called
  obtain rfl := Option.some.inj called
  by_cases detected : (s.thread t).isWriteDetected = true
  swap
  · exact .inl (by simpa using detected)
  by_cases right : (s.thread t).RightSlot
  · exact .inr (.inl right)
  rcases repeats.cases with rfl | ⟨s₂, first, rest⟩
  · rw [State.withThread_thread] at pc
    cases pc
  rw [step_abortStart known detected] at first
  obtain rfl := Option.some.inj first
  cases index : wsIndexInt (toInt32 (s.thread t).wsTailCounter) with
  | negSucc n =>
    rw [index] at rest
    have stuck : (s'.thread t).pc.afterAbort = true := by
      refine rest.invariant (fun s => (s.thread t).pc.afterAbort = true) ?_ fun s s' after _ hs => ?_
      · rw [State.withThread_thread]
        rfl
      · obtain ⟨e, stepped, rfl⟩ := step_lib hs
        rw [State.apply_thread, Function.update_self]
        exact libStep_afterAbort after stepped
    rw [pc] at stuck
    cases stuck
  | ofNat slot =>
    rw [index] at rest
    have other : slot ≠ (s.thread t).wsCurId := by
      rw [h.curId start]
      rintro rfl
      exact right index
    have astray : Astray t slot (s.thread t) s s' := by
      refine rest.invariant (Astray t slot (s.thread t) s) (.found ?_ rfl ?_)
        (fun _ _ h _ => h.step) <;>
      · rw [State.withThread_thread]
        rfl
    cases astray with
    | found pc' => rw [pc] at pc'; cases pc'
    | checked pc' => rw [pc] at pc'; cases pc'
    | beyond pc' => rw [pc] at pc'; cases pc'
    | unlocked pc' held free =>
      rw [restores.kept _ fun locked => ?_, held] at free
      · cases free
      · obtain ⟨c, -, held', new⟩ := locked
        obtain rfl := PObjCopy.copy.inj (held.symm.trans held')
        rcases h.own _ _ held rfl with old | ⟨same, -⟩
        · exact new old
        · exact other same
    | missed pc' none hdr =>
      refine .inr (.inr ⟨slot, index, none, ?_⟩)
      by_contra some
      have pos : 0 < (s.thread t).cur.numOfObjs := Nat.pos_of_ne_zero some
      have free := restores.unlocked _
        ((h.lockedSince_iff start extra _).mpr ⟨0, pos, rfl⟩)
      rw [hdr, (h.entries 0 (Nat.lt_add_right _ pos)).2] at free
      cases free

/-- The abort at the end of a section restores its locks and its log if and only if it finds
the section's write set. -/
theorem abort_restores (cfg : Config) (t : Nat) (s₀ s : State ω) (start : SectionStart t s₀)
    (ran : SectionRun cfg t s₀ s)
    (ready : (s.thread t).pc = .inSection ∨ (s.thread t).pc = .mustAbort) :
    AbortUndoes cfg t s₀ s ↔ (s.thread t).FindsWriteSet := by
  obtain ⟨known, -, h⟩ := ran.inSection start
  exact ⟨finds_of_abortUndoes start known h ready, abortUndoes_of_finds start known h ready⟩

end Abort

def insideStep [Inhabited ω] (cfg : Config) (t : Nat) (s : State ω) (a : Act ω) :
    Option (State ω) :=
  (step cfg s a).filter fun s' => (s'.thread t).pc.kind.inside

theorem SectionRun.of_run [Inhabited ω] {as : List (Act ω)} {s₁ : State ω}
    (begun : SectionRun cfg t s₀ s₁) (mine : ∀ a ∈ as, a = .lib t ∨ ∃ op, a = .call t op)
    (ran : System.run (insideStep cfg t) s₁ as = some s) : SectionRun cfg t s₀ s := by
  induction as generalizing s₁ with
  | nil => exact Option.some.inj ran ▸ begun
  | cons a as ih =>
    obtain ⟨s₂, hs, ran⟩ := Option.bind_eq_some_iff.mp ran
    obtain ⟨hs, inside⟩ := Option.filter_eq_some_iff.mp hs
    exact ih (begun.own (mine a List.mem_cons_self) hs inside)
      (fun a mem => mine a (List.mem_cons_of_mem _ mem)) ran

/-- Thread 0 in a new section, with no write set pending. -/
def sectionAt (tail : Nat) : State Nat :=
  { State.init fun _ _ => 0 with
    gCurThreads := 1
    thread := Function.update (fun _ => Thread.init) 0 { Thread.init with
      runCounter := 1
      wsHeadCounter := tail
      wsWbCounter := tail
      wsTailCounter := tail
      wsCurId := wsIndex tail
      pc := .inSection } }

theorem sectionAt_start (tail : Nat) : SectionStart 0 (sectionAt tail) :=
  ⟨Nat.zero_lt_one, rfl, rfl, rfl, rfl, ⟨rfl, rfl, rfl⟩, nofun, nofun⟩

def Pc.isInSection : Pc → Bool
  | .inSection => true
  | _ => false

theorem Pc.eq_of_isInSection {pc : Pc} (h : pc.isInSection = true) : pc = .inSection := by
  cases pc with
  | inSection => rfl
  | _ => cases h

def lockRun : List (Act Nat) := .call 0 (.tryLock (.actual 0)) :: List.replicate 9 (.lib 0)

theorem exists_locked (tail : Nat) (good : State Nat → Bool)
    (h : ((System.run (insideStep oneWriteSet 0) (sectionAt tail) lockRun).any fun s =>
      (s.thread 0).pc.isInSection && good s) = true) :
    ∃ s, SectionRun oneWriteSet 0 (sectionAt tail) s ∧ (s.thread 0).pc = .inSection ∧
      good s = true := by
  simp only [Option.any_eq_true_iff_get, Bool.and_eq_true] at h
  obtain ⟨reached, inSection, found⟩ := h
  refine ⟨_, SectionRun.start.of_run (fun a mem => ?_) (Option.some_get reached).symm,
    Pc.eq_of_isInSection inSection, found⟩
  rcases List.mem_cons.mp mem with rfl | mem
  · exact .inr ⟨_, rfl⟩
  · exact .inl (List.eq_of_mem_replicate mem)

/-- The last counter below `2 ^ 31`. -/
theorem abort_restores_below : ∃ s : State Nat,
    SectionRun oneWriteSet 0 (sectionAt (2 ^ 31 - 1)) s ∧
    s.hdr 0 = .copy ⟨0, wsIndex (2 ^ 31 - 1), 0⟩ ∧
    AbortUndoes oneWriteSet 0 (sectionAt (2 ^ 31 - 1)) s := by
  obtain ⟨s, ran, inSection, facts⟩ := exists_locked (2 ^ 31 - 1)
    (fun s => decide ((s.thread 0).RightSlot ∧ s.hdr 0 = .copy ⟨0, wsIndex (2 ^ 31 - 1), 0⟩))
    (by decide +kernel)
  obtain ⟨right, held⟩ := of_decide_eq_true facts
  exact ⟨s, ran, held, (abort_restores oneWriteSet 0 _ s (sectionAt_start _) ran
    (.inl inSection)).mpr (.inr (.inl right))⟩

/-- From `2 ^ 31` on the `int` parameter of `rlu_unlock_objs` is negative: the abort looks for its
write set outside the array. -/
theorem abort_misses_write_set : ¬ ∀ s₀ s : State Nat, SectionStart 0 s₀ →
    SectionRun oneWriteSet 0 s₀ s → (s.thread 0).pc = .inSection →
    AbortUndoes oneWriteSet 0 s₀ s := by
  intro claim
  obtain ⟨s, ran, inSection, facts⟩ := exists_locked (2 ^ 31)
    (fun s => decide ((s.thread 0).isWriteDetected = true ∧ (s.thread 0).wsTailCounter = 2 ^ 31))
    (by decide +kernel)
  obtain ⟨detected, tail⟩ := of_decide_eq_true facts
  obtain ⟨known, -, h⟩ := ran.inSection (sectionAt_start _)
  have index : wsIndexInt (toInt32 (2 ^ 31)) = -48 := by decide
  rcases finds_of_abortUndoes (sectionAt_start _) known h (.inl inSection)
    (claim _ s (sectionAt_start _) ran inSection) with clean | right | ⟨slot, found, -⟩
  · rw [clean] at detected
    cases detected
  · unfold Thread.RightSlot at right
    rw [tail, index] at right
    cases right
  · rw [tail, index] at found
    cases found

end ReadLogUpdate
