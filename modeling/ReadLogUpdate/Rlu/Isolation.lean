import ReadLogUpdate.Rlu.Snapshot

/-!
# Snapshot isolation

Every `RLU_DEREF` of a section gives the section's own copy, a committed copy of its thread, or
what the write sets published up to the section's version left, and the section alone changes
what it was given.
-/

namespace ReadLogUpdate

variable {ω : Type}

section Section
variable [Inhabited ω] {cfg : Config} {init : Nat → Nat → ω} {s : State ω} {a : Act ω}

def Thread.PendingCopy (th : Thread ω) (r o : Nat) (p : Ptr) : Prop :=
  ∃ ctr i, th.wsWbCounter ≤ ctr ∧ ctr < th.wsTailCounter ∧
    i < (th.objWriteSet (wsIndex ctr)).numOfObjs ∧ (th.entry ctr i).pObjActual = o ∧
    p = .copy ⟨r, wsIndex ctr, i⟩

/-- What a section of thread `r` with version `l` has to get for `o`. -/
structure Deref.Isolated (cfg : Config) (init : Nat → Nat → ω) (s : State ω) (r l o : Nat)
    (d : Deref) : Prop where
  own : d.own = true → ∃ i < (s.thread r).cur.numOfObjs,
    ((s.thread r).cur.buffer i).pObjActual = o ∧ d.result = .copy ⟨r, (s.thread r).wsCurId, i⟩
  committed : d.own = false → (s.thread r).Pending o → (s.thread r).PendingCopy r o d.result
  published : d.own = false → ¬ (s.thread r).Pending o → ∀ w < cfg.objWords,
    s.load d.result w = some (valueAt init l s.published o w)
  /-- a stolen copy stays in a slot that its owner does not use again -/
  notReused : ∀ c, d.result = .copy c → c.owner ≠ r → ∃ ctr, wsIndex ctr = c.slot ∧
    (s.thread c.owner).wsHeadCounter ≤ ctr ∧ ctr < (s.thread c.owner).wsTailCounter

theorem Deref.Shows.isolated (sound : Sound cfg s) {r l o : Nat} {d : Deref}
    (view : View cfg init s l) (version : (s.thread r).sectionVersion = some l)
    (shown : d.Shows cfg init s r l o) : d.Isolated cfg init s r l o := by
  have h := sound.wf.threads r
  cases shown with
  | own c result mine held current counted =>
    obtain ⟨-, -, actual⟩ := sound.locks.copy_of_held sound.wf held
    subst mine
    have committed (notOwn : d.own = false) :
        (s.thread c.owner).PendingCopy c.owner o d.result := by
      obtain ⟨ctr, live, slot, actual⟩ := sound.locks.logged o c held
      have apart : c.slot ≠ (s.thread c.owner).wsCurId := fun e => by
        rw [current.mpr e] at notOwn
        cases notOwn
      have ge := h.live_ge live
      obtain ⟨-, ⟨lt, num⟩ | ⟨e, -, -⟩⟩ := live
      · exact ⟨ctr, c.idx, ge, lt, num, actual, by rw [result, slot]⟩
      · rw [e, ← h.curId] at slot
        exact absurd slot.symm apart
    refine ⟨fun isOwn => ?_, fun notOwn _ => committed notOwn, fun notOwn free => ?_,
      fun c' result' other => ?_⟩
    · have slot := current.mp isOwn
      refine ⟨c.idx, ?_, ?_, by rw [result, ← slot]⟩
      · rw [Thread.cur, ← slot]
        exact counted
      · rw [Thread.cur, ← slot]
        exact actual
    · obtain ⟨ctr, i, ge, lt, num, actual, -⟩ := committed notOwn
      exact absurd ⟨ctr, i, ge, lt, num, actual⟩ free
    · obtain rfl := Ptr.copy.inj (result.symm.trans result')
      exact absurd rfl other
  | stolen c result other notOwn free kept =>
    obtain ⟨copy, ctr, slot, ge, lt, -⟩ := kept
    refine ⟨fun isOwn => ?_, fun _ pending => absurd pending free, fun _ _ w lt => ?_,
      fun c' result' _ => ?_⟩
    · rw [notOwn] at isOwn
      cases isOwn
    · rw [result, State.load, copy w lt]
    · obtain rfl := Ptr.copy.inj (result.symm.trans result')
      exact ⟨ctr, slot, ge, lt⟩
  | inPlace result notOwn free young =>
    refine ⟨fun isOwn => ?_, fun _ pending => absurd pending free, fun _ _ w lt => ?_,
      fun c' result' _ => ?_⟩
    · rw [notOwn] at isOwn
      cases isOwn
    · rw [result, State.load, view.inPlace o young w lt]
    · rw [result] at result'
      cases result'

omit [Inhabited ω] in
/-- A call from a section changes the log only by a store of the client. -/
theorem callInSection_store {t : Nat} {th : Thread ω} {op : Op ω} {e : Effect ω}
    (called : callInSection cfg s t th op = some e) :
    e.1.objWriteSet = th.objWriteSet ∨ ∃ c w x, op = .store c w x ∧ c.owner = t ∧
      e.1.objWriteSet = (th.modifyObj c.slot c.idx fun e =>
        { e with copy := Function.update e.copy w x }).objWriteSet := by
  cases op with
  | readerLock | checkpoint | finish => cases called
  | readerUnlock | abort =>
    obtain rfl := Option.some.inj called
    unfold rluUnregisterThread
    split_ifs <;> exact .inl rfl
  | deref p | tryLock p | lock p | tryWriterLock l =>
    simp only [callInSection, ← apply_ite some, Option.some.injEq] at called
    subst called
    split_ifs <;> exact .inl rfl
  | store c w x =>
    simp only [callInSection] at called
    split_ifs at called with own
    obtain rfl := Option.some.inj called
    exact .inr ⟨c, w, x, rfl, own.1, rfl⟩
  | free p =>
    obtain rfl := Option.some.inj called
    unfold rluFree
    split
    · exact .inl rfl
    · split_ifs <;> exact .inl rfl
    · exact .inl rfl

omit [Inhabited ω] in
theorem store_copy_of_ne (th : Thread ω) {slot idx w slot' idx' w' : Nat} (x : ω)
    (ne : ¬ (slot' = slot ∧ idx' = idx ∧ w' = w)) :
    (((th.modifyObj slot idx fun e => { e with copy := Function.update e.copy w x }).objWriteSet
      slot').buffer idx').copy w' = ((th.objWriteSet slot').buffer idx').copy w' := by
  unfold Thread.modifyObj Thread.setWriteSet
  dsimp only
  by_cases slots : slot' = slot
  · subst slots
    rw [Function.update_self]
    by_cases entries : idx' = idx
    · subst entries
      rw [WriteSet.modifyObj_buffer_self]
      exact Function.update_of_ne (fun e => ne ⟨rfl, rfl, e⟩) _ _
    · rw [WriteSet.modifyObj_buffer_of_ne _ _ entries]
  · rw [Function.update_of_ne slots]

/-- A copy of a section's own changes by its own stores only. -/
theorem actEffect_ownCopy {t : Nat} {e : Effect ω} (sound : Sound cfg s) (right : RightSlot s a)
    (act : ActEffect cfg s a t e) {c : CopyAddr}
    (odd : (s.thread c.owner).runCounter % 2 = 1)
    (counted : c.idx < ((s.thread c.owner).objWriteSet c.slot).numOfObjs) (w : Nat) :
    ((s.apply t e.1 e.2).wsObj c).copy w = (s.wsObj c).copy w ∨
    ∃ x, a = .call c.owner (.store c w x) := by
  unfold State.wsObj
  rw [State.apply_thread]
  by_cases eq : c.owner = t
  · subst eq
    rw [Function.update_self]
    have log := actEffect_log (sound.wf.threads c.owner) right act
    obtain ⟨-, -, -, contents, -⟩ := log.inSection (sound.wf.threads c.owner) odd
    rcases contents c.slot c.idx counted with client | same
    · rcases act with ⟨op, rfl, called⟩ | ⟨-, stepped⟩
      · rw [client] at called
        rcases callInSection_store called with same | ⟨⟨owner, slot, idx⟩, w', x, rfl, rfl, changed⟩
        · rw [same]
          exact .inl rfl
        · rw [changed]
          by_cases target : slot = c.slot ∧ idx = c.idx ∧ w' = w
          · obtain ⟨rfl, rfl, rfl⟩ := target
            exact .inr ⟨x, rfl⟩
          · exact .inl (store_copy_of_ne _ x fun e => target ⟨e.1.symm, e.2.1.symm, e.2.2.symm⟩)
      · rw [client] at stepped
        cases stepped
    · rw [same]
      exact .inl rfl
  · rw [Function.update_of_ne eq]
    exact .inl rfl

/-- What a section was given changes by its own stores only. -/
theorem actEffect_stable {t r l o : Nat} {d : Deref} {e : Effect ω} (sound : Sound cfg s)
    (snap : Snapshots cfg init s) (right : RightSlot s a) (act : ActEffect cfg s a t e)
    (before : (s.thread r).sectionVersion = some l)
    (after : ((s.apply t e.1 e.2).thread r).sectionVersion = some l)
    (shown : d.Shows cfg init s r l o) {w : Nat} (lt : w < cfg.objWords) :
    (s.apply t e.1 e.2).load d.result w = s.load d.result w ∨
    ∃ c x, d.result = .copy c ∧ a = .call r (.store c w x) := by
  have le := actEffect_version_le sound.wf sound.grace act after
  have values := (actEffect_log (sound.wf.threads t) right act).valueAt_eq
    (sound.grace.acquires t) init le
  cases shown with
  | own c result mine held current counted =>
    subst mine
    have odd := (sound.wf.threads c.owner).odd_of_version before
    rcases actEffect_ownCopy sound right act odd counted w with same | ⟨x, client⟩
    · rw [result, State.load, State.load, same]
      exact .inl rfl
    · exact .inr ⟨c, x, result, client⟩
  | stolen c result other notOwn free kept =>
    have kept' := actEffect_kept sound right act le (sound.waited_le before) kept
    rw [result, State.load, State.load, kept'.1 w lt, kept.1 w lt, values]
    exact .inl rfl
  | inPlace result notOwn free young =>
    have young' (c : CopyAddr) (old : OldLock (s.apply t e.1 e.2) l o c) : False :=
      young c (actEffect_oldLock sound.wf sound.grace right act le old)
    rw [result, State.load, State.load, (snap.views r l before).inPlace o young w lt,
      (actEffect_views sound snap right act after).inPlace o young' w lt, values]
    exact .inl rfl

end Section

/-! ### Dereferencing a copy -/

/-- What `RLU_DEREF` looks up behind a header is the copy of an object, not of a copy. -/
def DerefPc.AtObject : DerefPc → Prop
  | .owner p _ | .version p _ _ => ∀ c, p ≠ .copy c
  | _ => True

/-- `RLU_DEREF` returns the address of a copy as it is. -/
structure CopiesStay (s : State ω) : Prop where
  atObject : ∀ t q, (s.thread t).pc = .deref q → q.AtObject
  returned : ∀ t l, (s.thread t).sectionVersion = some l → ∀ d ∈ (s.thread t).derefs,
    ∀ c, d.arg = .copy c → d.result = .copy c

section Copies
variable {s : State ω} {t : Nat} {th : Thread ω}

theorem derefStep_atObject {q q' : DerefPc} (unchained : Unchained s) (at_ : q.AtObject)
    (next : (derefStep s t th q).1.pc = .deref q') : q'.AtObject := by
  cases q with
  | header p =>
    simp only [derefStep] at next
    split_ifs at next <;> cases next
    trivial
  | slow p =>
    simp only [derefStep] at next
    split at next
    · cases next
    · cases next
    · rename_i c held
      cases next
      rintro c' rfl
      exact unchained c' c held
  | owner p c =>
    simp only [derefStep] at next
    split_ifs at next <;> cases next
    exact at_
  | version p c thId =>
    simp only [derefStep] at next
    (repeat' split at next) <;> cases next

theorem derefStep_copy {q : DerefPc} {c : CopyAddr} {r : Ptr} (at_ : q.AtObject)
    (returned : derefStep s t th q = derefReturn th (.copy c) r) : r = .copy c := by
  have same {p : Ptr} (e : derefReturn th p p = derefReturn th (.copy c) r) : r = .copy c := by
    obtain ⟨rfl, rfl⟩ := derefReturn_inj e
    rfl
  have beyond {b : Prop} {pc : DerefPc} (e : th.go (.deref pc) = derefReturn th (.copy c) r) : b := by
    cases congrArg (fun e => e.1.pc) e
  cases q with
  | header p =>
    simp only [derefStep] at returned
    split_ifs at returned
    · exact same returned
    · exact beyond returned
  | slow p =>
    simp only [derefStep] at returned
    split at returned
    · exact same returned
    · exact same returned
    · exact beyond returned
  | owner p c' =>
    simp only [derefStep] at returned
    split_ifs at returned
    · exact absurd (derefReturn_inj returned).1 (at_ c)
    · exact beyond returned
    · exact same returned
  | version p c' thId =>
    simp only [derefStep] at returned
    repeat' split at returned
    · exact absurd (derefReturn_inj returned).1 (at_ c)
    · exact same returned
    · exact same returned

theorem reachable_copiesStay [Inhabited ω] {cfg : Config} {ok : State ω → Act ω → Prop}
    (orderly : ∀ s a, ok s a → Orderly s a) {s : State ω}
    (h : System.Reachable Init (step cfg) ok s) : CopiesStay s := by
  refine System.Reachable.invariant_of CopiesStay
    (fun _ h => And.intro (reachable_sound orderly h) (And.intro (reachable_reading orderly h)
      (reachable_unchained (fun s a hok => (orderly s a hok).1) h)))
    (fun _ => ?_) (fun s a s' known _ stay hok hs => ?_) h
  · rintro ⟨obj, rfl⟩
    exact ⟨fun _ _ pc => (by cases pc), fun _ _ _ _ mem => (by cases mem)⟩
  obtain ⟨sound, reading, unchained⟩ := known
  rcases step_cases hs with ⟨rfl, rfl⟩ | ⟨t, e, -, act, rfl⟩
  · rw [sound.wf.threadInit]
    exact ⟨stay.atObject, stay.returned⟩
  refine ⟨fun u q pc => ?_, fun u l version d mem c arg => ?_⟩ <;>
    rw [State.apply_thread] at *
  · by_cases own : u = t
    · subst own
      rw [Function.update_self] at pc
      rcases actEffect_deref act pc with ⟨p, rfl⟩ | ⟨q', before, effect⟩
      · trivial
      · exact derefStep_atObject unchained (stay.atObject u q' before) (effect ▸ pc)
    · rw [Function.update_of_ne own] at pc
      exact stay.atObject u q pc
  · by_cases own : u = t
    · subst own
      rw [Function.update_self] at version mem
      rcases actEffect_derefs sound.wf reading (orderly s a hok).1 act version with
        empty | ⟨before, -, same | ⟨p, r, effect, source⟩⟩
      · rw [empty] at mem
        cases mem
      · rw [same] at mem
        exact stay.returned u l before d mem c arg
      · rw [effect] at mem
        rcases List.mem_cons.mp mem with rfl | mem
        · rcases source with ⟨-, -, same⟩ | ⟨q, pc, returned⟩
          · exact same.trans arg
          · have arg : p = .copy c := arg
            rw [arg] at returned
            exact derefStep_copy (stay.atObject u q pc) returned
        · exact stay.returned u l before d mem c arg
    · rw [Function.update_of_ne own] at version mem
      exact stay.returned u l version d mem c arg

end Copies

theorem SectionStep.version_of_run {t : Nat} {s : State ω} {th : Thread ω} {e : Effect ω}
    (step : SectionStep s t th e) (odd : th.runCounter % 2 = 1)
    (returned : th.pc.kind ≠ .readerLock) (same : e.1.runCounter = th.runCounter) :
    e.1.sectionVersion = th.sectionVersion := by
  cases step with
  | same run version steal check derefs notLocking notLocking' =>
    rw [Thread.sectionVersion_of_kind notLocking', Thread.sectionVersion_of_kind notLocking, run,
      version]
  | outside even => omega
  | register pc | loadVersion pc | storeVersion v pc | loadCommit pc =>
    rw [pc] at returned
    exact absurd rfl returned
  | deref p r effect =>
    subst effect
    rw [Thread.sectionVersion_of_kind returned,
      Thread.sectionVersion_of_kind (by show PcKind.inSection ≠ _; nofun)]
    rfl
  | leave odd' run => omega

/-- A dereference of object `o` by thread `r`: of its address, of that of the section's own copy, or
of that of the copy that another dereference returned, with the object held at both or at neither. -/
inductive Deref.Of (th : Thread ω) (r o : Nat) (d : Deref) : Prop
  | actual (arg : d.arg = .actual o)
  | current (i : Nat) (arg : d.arg = .copy ⟨r, th.wsCurId, i⟩) (lt : i < th.cur.numOfObjs)
      (actual : (th.cur.buffer i).pObjActual = o) (own : d.own = true)
  | again (d' : Deref) (mem : d' ∈ th.derefs) (arg : d'.arg = .actual o)
      (result : d'.result = d.arg) (own : d'.own = d.own)

/-- An entry of the current write set is live while its section runs. -/
theorem Control.not_dropped {cfg : Config} {t i : Nat} {th : Thread ω} {pc : Pc}
    (h : Control cfg t th pc) (odd : th.runCounter % 2 = 1) (lt : i < th.cur.numOfObjs) :
    ¬ pc.dropped i := by
  have out {p : Prop} (even : th.runCounter % 2 = 0) : p := by omega
  induction pc with
  | failed line pc ih => exact ih h.2.2
  | fault pc ih => exact ih h.2
  | sync k pc =>
    cases pc with
    | start | storeMax | commitAdd => exact out h.1
    | _ => exact out h.1.1
  | init | idle | finished => exact out h.1
  | inSection | mustAbort | deref | writerLock | tryLock => exact id
  | syncCheckpoint | readerUnlock => exact out h.1.1
  | readerLock q =>
    cases q with
    | register => exact out h.1.1
    | _ =>
      have empty := h.1.2.2.2.2.1 h.2
      omega
  | abort q => cases q <;> exact out h.1.1
  | release r q =>
    cases r with
    | abortWrite => exact out h.1
    | _ => exact out h.1.1

theorem Sound.deref_shows [Inhabited ω] {cfg : Config} {init : Nat → Nat → ω} {s : State ω}
    (sound : Sound cfg s) (snap : Snapshots cfg init s) (stay : CopiesStay s) {r l o : Nat}
    {d : Deref} (version : (s.thread r).sectionVersion = some l) (mem : d ∈ (s.thread r).derefs)
    (of : d.Of (s.thread r) r o) : d.Shows cfg init s r l o := by
  have same {d' : Deref} (result : d.result = d'.result) (own : d.own = d'.own)
      (shown : d'.Shows cfg init s r l o) : d.Shows cfg init s r l o := by
    cases d
    cases d'
    obtain rfl := result
    obtain rfl := own
    cases shown with
    | own c result mine held current counted => exact .own c result mine held current counted
    | stolen c result other notOwn free kept => exact .stolen c result other notOwn free kept
    | inPlace result notOwn free young => exact .inPlace result notOwn free young
  have h := sound.wf.threads r
  have odd := h.odd_of_version version
  cases of with
  | actual arg => exact snap.shown r l version d mem o arg
  | current i arg lt actual own =>
    have held := sound.held_of_current (h.control.inside odd).2.1 (h.control.not_dropped odd lt) lt
    rw [actual] at held
    exact .own _ (stay.returned r l version d mem _ arg) rfl held (iff_of_true own rfl) lt
  | again d' mem' arg result own =>
    have shown := snap.shown r l version d' mem' o arg
    cases copy : d'.result with
    | copy c =>
      refine same ?_ own.symm shown
      rw [copy]
      exact stay.returned r l version d mem c (result.symm.trans copy)
    | null => rcases shown with ⟨c, e, -⟩ | ⟨c, e, -⟩ | ⟨e, -⟩ <;> rw [copy] at e <;> cases e
    | actual o' =>
      rcases shown with ⟨c, e, -⟩ | ⟨c, e, -⟩ | ⟨e, -⟩ <;> rw [copy] at e <;> cases e
      exact snap.shown r l version d mem o (result.symm.trans copy)

/-- Snapshot isolation: in a section with version `local_version`, a dereferenced object is the
section's own copy, else a committed copy of its thread, else what exactly the write sets
published up to that version left; and it stays so, but for the section's own stores, until the
section ends. -/
theorem snapshot_isolation [Inhabited ω] (cfg : Config) (init : Nat → Nat → ω) (s : State ω)
    (h : ReachableFrom cfg init (fun s a => VersionAtomic s a ∧ RightSlot s a) s) (r : Nat)
    (inside : (s.thread r).runCounter % 2 = 1) (returned : (s.thread r).pc.kind ≠ .readerLock)
    (d : Deref) (mem : d ∈ (s.thread r).derefs) (o : Nat) (of : d.Of (s.thread r) r o) :
    d.Isolated cfg init s r (s.thread r).localVersion o ∧
    ∀ a s', VersionAtomic s a → RightSlot s a → step cfg s a = some s' →
      (s'.thread r).runCounter = (s.thread r).runCounter → ∀ w < cfg.objWords,
      s'.load d.result w = s.load d.result w ∨
      ∃ c x, d.result = .copy c ∧ a = .call r (.store c w x) := by
  have orderly (s : State ω) (a : Act ω) (ok : VersionAtomic s a ∧ RightSlot s a) : Orderly s a :=
    ⟨ok.2, ok.1.noOvertake⟩
  have sound := reachable_sound orderly h.reachable
  have snap := reachable_snapshots orderly h
  have version : (s.thread r).sectionVersion = some (s.thread r).localVersion := by
    rw [Thread.sectionVersion_of_kind returned, if_pos inside]
  have shown := sound.deref_shows snap (reachable_copiesStay orderly h.reachable) version mem of
  refine ⟨shown.isolated sound (snap.views r _ version) version,
    fun a s' atomic right hs same w lt => ?_⟩
  rcases step_cases hs with ⟨rfl, rfl⟩ | ⟨t, e, -, act, rfl⟩
  · rw [sound.wf.threadInit]
    exact .inl rfl
  · refine actEffect_stable sound snap right act version ?_ shown lt
    rw [State.apply_thread] at same ⊢
    by_cases eq : r = t
    · subst eq
      rw [Function.update_self] at same ⊢
      exact ((actEffect_section (sound.wf.threads r) act).version_of_run inside returned same).trans
        version
    · rw [Function.update_of_ne eq]
      exact version

/-- The section of thread 1 that steals the copy of thread 0. -/
theorem snapshot_isolation_stolen : ∃ s : State Nat,
    ReachableFrom oneWriteSet (fun _ _ => 0) (fun s a => VersionAtomic s a ∧ RightSlot s a) s ∧
    ∃ d ∈ (s.thread 1).derefs, d.result = .copy ⟨0, 0, 0⟩ ∧
      d.Isolated oneWriteSet (fun _ _ => 0) s 1 (s.thread 1).localVersion 0 := by
  let steals (s : State Nat) : Bool :=
    decide ((s.thread 1).runCounter % 2 = 1) && decide ((s.thread 1).pc.kind ≠ .readerLock) &&
      (s.thread 1).derefs.any fun d => decide (d.result = .copy ⟨0, 0, 0⟩ ∧ d.arg = .actual 0)
  have reached : ((System.run (System.guarded (step oneWriteSet)
      fun s a => VersionAtomic s a ∧ RightSlot s a) (State.init fun _ _ => 0) stolenRun).any
        steals) = true := by
    decide +kernel
  obtain ⟨s, h, facts⟩ : ∃ s, ReachableFrom oneWriteSet (fun _ _ => 0)
      (fun s a => VersionAtomic s a ∧ RightSlot s a) s ∧ steals s = true :=
    System.exists_reachable (by rfl) reached
  simp only [steals, Bool.and_eq_true, decide_eq_true_eq, List.any_eq_true] at facts
  obtain ⟨⟨inside, returned⟩, d, mem, result, arg⟩ := facts
  exact ⟨s, h, d, mem, result,
    (snapshot_isolation oneWriteSet _ s h 1 inside returned d mem 0 (.actual arg)).1⟩

end ReadLogUpdate
