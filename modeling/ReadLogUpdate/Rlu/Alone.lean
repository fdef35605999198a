import ReadLogUpdate.Rlu.Control

/-!
# Uninterrupted steps of one thread

What the loops of a thread leave behind when no other thread steps in between. A state is
written as the globals with the record of the thread put on top of them.
-/

namespace ReadLogUpdate

variable {ω : Type}

namespace State

def withThread (s : State ω) (t : Nat) (th : Thread ω) : State ω :=
  { s with thread := Function.update s.thread t th }

def withHdr (s : State ω) (hdr : Nat → PObjCopy) : State ω := { s with hdr := hdr }

def withObj (s : State ω) (obj : Nat → Nat → ω) : State ω := { s with obj := obj }

def withLocks (s : State ω) (locks : Nat → Nat) : State ω := { s with gWriterLocks := locks }

def write (s : State ω) (t : Nat) (th : Thread ω) : Write ω → State ω
  | .none => s
  | .hdr o v => s.withHdr (Function.update s.hdr o v)
  | .obj o w x => s.withObj (Function.update s.obj o (Function.update (s.obj o) w x))
  | .addWriterVersion =>
    { s with
      gWriterVersion := s.gWriterVersion + 1
      published := ⟨th.flight.getD 0, th.pendingObjs⟩ :: s.published }
  | .addCommitVersion => { s with gCommitVersion := s.gCommitVersion + 1 }
  | .isSync u n => { s with isSync := Function.update s.isSync u n }
  | .writerLock l n => s.withLocks (Function.update s.gWriterLocks l n)
  | .register => { s with gThreads := Function.update s.gThreads t true }
  | .free n => { s with released := (t, n) :: s.released }
  | .commit objs => { s with left := overlay objs s.left }

variable (s : State ω) (t : Nat) (th th' : Thread ω)

@[simp] theorem withThread_thread : (s.withThread t th).thread t = th := Function.update_self _ _ _

@[simp] theorem withThread_gCurThreads : (s.withThread t th).gCurThreads = s.gCurThreads := rfl
@[simp] theorem withThread_gThreads : (s.withThread t th).gThreads = s.gThreads := rfl
@[simp] theorem withThread_gWriterLocks : (s.withThread t th).gWriterLocks = s.gWriterLocks := rfl
@[simp] theorem withThread_isSync : (s.withThread t th).isSync = s.isSync := rfl
@[simp] theorem withThread_hdr : (s.withThread t th).hdr = s.hdr := rfl
@[simp] theorem withThread_obj : (s.withThread t th).obj = s.obj := rfl

@[simp] theorem withLocks_withLocks (f g : Nat → Nat) :
    (s.withLocks f).withLocks g = s.withLocks g := rfl

@[simp] theorem withThread_self : s.withThread t (s.thread t) = s := by
  unfold withThread
  rw [Function.update_eq_self]

@[simp] theorem withThread_withThread :
    (s.withThread t th).withThread t th' = s.withThread t th' := by
  unfold withThread
  rw [Function.update_idem]

theorem write_withThread (w : Write ω) :
    (s.withThread t th).apply t th' w = (s.write t th' w).withThread t th' := by
  cases w <;> simp only [apply, withThread, Function.update_idem] <;> rfl

end State

@[simps] def Thread.atPc (th : Thread ω) (pc : Pc) : Thread ω := { th with pc := pc }

theorem Thread.go_eq (th : Thread ω) (pc : Pc) : th.go pc = (th.atPc pc, .none) := rfl

@[simp] theorem Thread.atPc_atPc (th : Thread ω) (pc pc' : Pc) :
    (th.atPc pc).atPc pc' = th.atPc pc' := rfl

@[simp] theorem Thread.releaserSlot_atPc (th : Thread ω) (pc : Pc) (r : Releaser) :
    releaserSlot (th.atPc pc) r = releaserSlot th r := by cases r <;> rfl

variable [Inhabited ω]

/-- The steps of thread `t` inside its call lead to a state with `Q`. -/
abbrev Alone (cfg : Config) (t : Nat) (s : State ω) (Q : State ω → Prop) : Prop :=
  System.Leads (step cfg) RightSlot (.lib t) s Q

variable {cfg : Config} {t : Nat} {s : State ω} {th : Thread ω} {Q : State ω → Prop}

theorem Alone.step (th' : Thread ω) (w : Write ω) (lt : t < s.gCurThreads)
    (stepped : libStep cfg (s.withThread t th) t th th.pc = some (th', w))
    (next : Alone cfg t ((s.write t th' w).withThread t th') Q)
    (start : th.pc.isAbortStart = true → th.isWriteDetected = true → th.RightSlot) :
    Alone cfg t (s.withThread t th) Q := by
  refine .head ?_ ?_ next
  · show ((s.withThread t th).thread t).pc.isAbortStart = true → _
    rw [State.withThread_thread]
    exact start
  · simp only [ReadLogUpdate.step, State.withThread_gCurThreads, if_pos lt, State.withThread_thread,
      stepped, Option.map_some, State.write_withThread]

theorem Alone.free (h : Alone cfg t s Q) :
    System.Leads (ReadLogUpdate.step cfg) (fun _ _ => True) (.lib t) s Q :=
  h.weaken fun _ _ => trivial

theorem release_loop {r : Releaser} {ls : List Nat} (n : Nat) {s : State ω} {i : Nat}
    (len : ls.length = i + n) (lt : t < s.gCurThreads)
    (locks : (th.objWriteSet (releaserSlot th r)).writerLocks = ls) (nodup : ls.Nodup)
    (held : ∀ l ∈ ls.drop i, s.gWriterLocks l = lockId t) :
    Alone cfg t (s.withThread t (th.atPc (.release r (.check i)))) fun s' =>
      s' = (s.withLocks fun l => if l ∈ ls.drop i then 0 else s.gWriterLocks l).withThread t
        (th.atPc (.release r (.check ls.length))) := by
  induction n generalizing s i with
  | zero =>
    have none : ls.drop i = [] := List.drop_eq_nil_of_le (by omega)
    obtain rfl : i = ls.length := by omega
    simp only [none, List.not_mem_nil, if_false]
    exact .done rfl
  | succ n ih =>
    have bound : i < ls.length := by omega
    have here : ls[i]? = some ls[i] := List.getElem?_eq_getElem bound
    have drop : ls.drop i = ls[i] :: ls.drop (i + 1) := List.drop_eq_getElem_cons bound
    have own : s.gWriterLocks ls[i] = lockId t := held _ (drop ▸ List.mem_cons_self)
    have fresh : ls[i] ∉ ls.drop (i + 1) := by
      have := (List.drop_sublist i ls).nodup nodup
      rw [drop] at this
      exact (List.nodup_cons.mp this).1
    refine .step (th.atPc (.release r (.store i))) .none lt ?_ ?_ (by rintro ⟨⟩)
    · simp [libStep, releaseStep, locks, here, own, Thread.go_eq]
    refine .step (th.atPc (.release r (.check (i + 1)))) (.writerLock ls[i] 0) lt ?_ ?_ (by rintro ⟨⟩)
    · simp only [Thread.atPc_pc, libStep, releaseStep, Thread.releaserSlot_atPc,
        Thread.atPc_objWriteSet, locks, here]
      rfl
    have rest := ih (s := s.withLocks (Function.update s.gWriterLocks ls[i] 0)) (i := i + 1)
      (by omega) lt fun l mem => by
        show Function.update s.gWriterLocks ls[i] 0 l = lockId t
        rw [Function.update_of_ne (ne_of_mem_of_not_mem mem fresh)]
        exact held l (drop ▸ List.mem_cons_of_mem _ mem)
    refine rest.mono fun s' e => e.trans ?_
    rw [State.withLocks_withLocks]
    congr 2
    funext l
    show (if l ∈ ls.drop (i + 1) then 0 else Function.update s.gWriterLocks ls[i] 0 l) = _
    rw [drop]
    by_cases eq : l = ls[i]
    · rw [eq, if_neg fresh, Function.update_self, if_pos List.mem_cons_self]
    · rw [Function.update_of_ne eq]
      simp only [List.mem_cons, eq, false_or]

theorem release_all {r : Releaser} {s : State ω} (lt : t < s.gCurThreads)
    (nodup : (th.objWriteSet (releaserSlot th r)).writerLocks.Nodup)
    (held : ∀ l ∈ (th.objWriteSet (releaserSlot th r)).writerLocks, s.gWriterLocks l = lockId t) :
    Alone cfg t (s.withThread t (th.atPc (.release r (.check 0)))) fun s' =>
      s' = (s.withLocks fun l => if l ∈ (th.objWriteSet (releaserSlot th r)).writerLocks then 0
        else s.gWriterLocks l).withThread t (afterRelease th r).1 := by
  refine (release_loop _ (Nat.zero_add _).symm lt rfl nodup held).trans ?_
  rintro s' rfl
  refine Alone.step (afterRelease th r).1 .none lt ?_ (.done rfl) nofun
  simp only [Thread.atPc_pc, libStep, releaseStep, Thread.releaserSlot_atPc, Thread.atPc_objWriteSet,
    List.getElem?_eq_none (Nat.le_refl _)]
  cases r <;> rfl

/-- The objects of the entries from index `i` on are unlocked. -/
theorem unlock_loop {slot : Nat} (n : Nat) {s : State ω} {i : Nat}
    (len : (th.objWriteSet slot).numOfObjs = i + n) (lt : t < s.gCurThreads)
    (entries : ∀ j, i ≤ j → j < (th.objWriteSet slot).numOfObjs →
      ((th.objWriteSet slot).buffer j).pObjCopy = .ptrIdObjCopy ∧
      s.hdr ((th.objWriteSet slot).buffer j).pObjActual = .copy ⟨t, slot, j⟩) :
    Alone cfg t (s.withThread t (th.atPc (.abort (.unlock slot i)))) fun s' =>
      ∃ hdr, s' = (s.withHdr hdr).withThread t (th.atPc (.release .abortWrite (.check 0))) ∧
        (∀ j, i ≤ j → j < (th.objWriteSet slot).numOfObjs →
          hdr ((th.objWriteSet slot).buffer j).pObjActual = .null) ∧
        ∀ o, (∀ j, i ≤ j → j < (th.objWriteSet slot).numOfObjs →
          ((th.objWriteSet slot).buffer j).pObjActual ≠ o) → hdr o = s.hdr o := by
  induction n generalizing s i with
  | zero =>
    refine .step (th.atPc (.release .abortWrite (.check 0))) .none lt ?_ (.done ?_) (by rintro ⟨⟩)
    · simp [libStep, abortStep, len, Thread.go_eq]
    · exact ⟨s.hdr, rfl, fun j ge lt => by omega, fun _ _ => rfl⟩
  | succ n ih =>
    obtain ⟨mark, own⟩ := entries i (Nat.le_refl i) (by omega)
    have bound : i < (th.objWriteSet slot).numOfObjs := by omega
    refine .step (th.atPc (.abort (.unlockStore slot i))) .none lt ?_ ?_ (by rintro ⟨⟩)
    · simp [libStep, abortStep, bound, mark, own, Thread.go_eq]
    refine .step (th.atPc (.abort (.unlock slot (i + 1))))
      (.hdr ((th.objWriteSet slot).buffer i).pObjActual .null) lt rfl ?_ (by rintro ⟨⟩)
    have rest := ih (s := s.withHdr (Function.update s.hdr _ .null)) (i := i + 1) (by omega) lt
      fun j ge lt => by
        obtain ⟨mark', own'⟩ := entries j (by omega) lt
        refine ⟨mark', ?_⟩
        show Function.update s.hdr _ _ _ = _
        rw [Function.update_of_ne, own']
        intro e
        rw [e, own] at own'
        have : i = j := (CopyAddr.mk.inj (PObjCopy.copy.inj own')).2.2
        omega
    refine rest.mono ?_
    rintro s' ⟨hdr, rfl, unlocked, others⟩
    refine ⟨hdr, rfl, fun j ge lt => ?_, fun o other => ?_⟩
    · rcases Nat.eq_or_lt_of_le ge with rfl | ge
      · by_cases again : ∃ k, i + 1 ≤ k ∧ k < (th.objWriteSet slot).numOfObjs ∧
            ((th.objWriteSet slot).buffer k).pObjActual = ((th.objWriteSet slot).buffer i).pObjActual
        · obtain ⟨k, ge, lt, e⟩ := again
          exact e ▸ unlocked k ge lt
        · rw [others _ fun k ge lt e => again ⟨k, ge, lt, e⟩]
          exact Function.update_self _ _ _
      · exact unlocked j ge lt
    · rw [others o fun j ge lt => other j (by omega) lt]
      exact Function.update_of_ne (Ne.symm (other i (Nat.le_refl i) bound)) _ _

end ReadLogUpdate
