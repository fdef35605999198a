import ReadLogUpdate.Rlu.Conflict

/-!
# What the copies are copies of

`FORCE_ACTUAL` and `rlu_try_lock` read in the header of a copy which object it is a copy of. For a
copy that `RLU_DEREF` returned this stays the object of the call, also when the copy is another
thread's and its owner has unlocked the object meanwhile. And `rlu_try_lock` returns without a new
lock only when the running section holds the object.
-/

namespace ReadLogUpdate

variable {ω : Type}

/-- The header of the copy marks it as one of `o`. -/
def Names (s : State ω) (c : CopyAddr) (o : Nat) : Prop :=
  (s.wsObj c).pObjCopy = .ptrIdObjCopy ∧ (s.wsObj c).pObjActual = o

/-- The copies that `RLU_DEREF` is about to return. -/
def DerefNames (s : State ω) (l : Nat) : Pc → Prop
  | .deref (.owner (.actual o) c) =>
    ∀ v, (s.thread c.owner).flight = some v → v ≤ l → Names s c o
  | .deref (.version (.actual o) c _) =>
    ∀ v, (s.thread c.owner).flight = some v → v ≤ l → Names s c o
  | _ => True

/-- What `rlu_try_lock` knows about a lock of the thread's own. -/
def LockSees (s : State ω) (t : Nat) : Pc → Prop
  | .tryLock (.owner o c) =>
    (s.wsObj c).threadId = c.owner ∧ (c.owner = t → s.hdr o = .copy c)
  | .tryLock (.runCounter o c) => c.owner = t ∧ s.hdr o = .copy c
  | _ => True

structure Naming (s : State ω) : Prop where
  derefs : ∀ r l, (s.thread r).sectionVersion = some l → ∀ d ∈ (s.thread r).derefs, ∀ o c,
    d.arg = .actual o → d.result = .copy c → Names s c o
  deref : ∀ r l, (s.thread r).sectionVersion = some l → DerefNames s l (s.thread r).pc
  locks : ∀ r, LockSees s r (s.thread r).pc

section Step
variable [Inhabited ω] {cfg : Config} {s : State ω} {a : Act ω} {t : Nat} {e : Effect ω}
  {init : Nat → Nat → ω}

/-- A copy that a section uses stays as it is, header and all. -/
theorem actEffect_kept_wsObj (sound : Sound cfg s) (right : RightSlot s a)
    (act : ActEffect cfg s a t e) {l o : Nat} {c : CopyAddr} (le : l ≤ s.gWriterVersion)
    (waited : ∀ k v, (s.thread t).pc = .sync k .reset → (s.thread t).flight = some v → v ≤ l)
    (kept : Kept cfg init s l o c) : (s.apply t e.1 e.2).wsObj c = s.wsObj c := by
  have log := actEffect_log (sound.wf.threads t) right act
  obtain ⟨-, ctr, slot, ge, lt, waits⟩ := kept
  unfold State.wsObj
  rw [State.apply_thread]
  by_cases eq : c.owner = t
  · subst eq
    obtain ⟨buffer, -⟩ := log.kept (sound.wf.threads c.owner) (sound.grace.acquires c.owner) le waited
      ge lt waits
    rw [Function.update_self, ← slot, buffer]
  · rw [Function.update_of_ne eq]

omit [Inhabited ω] in
theorem Names.congr {s' : State ω} {c : CopyAddr} {o : Nat} (names : Names s c o)
    (same : s'.wsObj c = s.wsObj c) : Names s' c o := by
  unfold Names
  rw [same]
  exact names

theorem Sound.names_of_held (sound : Sound cfg s) {o : Nat} {c : CopyAddr} (held : s.hdr o = .copy c) :
    Names s c o :=
  (sound.locks.copy_of_held sound.wf held).2

/-- What a section got from `RLU_DEREF` stays a copy of the same object. -/
theorem actEffect_names (sound : Sound cfg s) (sound' : Sound cfg (s.apply t e.1 e.2))
    (right : RightSlot s a) (act : ActEffect cfg s a t e) {r l o : Nat} {d : Deref} {c : CopyAddr}
    (before : (s.thread r).sectionVersion = some l)
    (after : ((s.apply t e.1 e.2).thread r).sectionVersion = some l)
    (shown : d.Shows cfg init s r l o) (result : d.result = .copy c) (names : Names s c o) :
    Names (s.apply t e.1 e.2) c o := by
  cases actEffect_shows sound right act before after shown with
  | own c' result' mine held =>
    obtain rfl := Ptr.copy.inj (result.symm.trans result')
    exact sound'.names_of_held held
  | inPlace result' =>
    rw [result] at result'
    cases result'
  | stolen c' result' other =>
    obtain rfl := Ptr.copy.inj (result.symm.trans result')
    cases shown with
    | own c' result' mine =>
      obtain rfl := Ptr.copy.inj (result.symm.trans result')
      exact absurd mine other
    | inPlace result' =>
      rw [result] at result'
      cases result'
    | stolen c' result' other notOwn free kept =>
      obtain rfl := Ptr.copy.inj (result.symm.trans result')
      exact names.congr (actEffect_kept_wsObj sound right act
        (sound.grace.section_le r l before).2 (sound.waited_le before) kept)

/-- What `RLU_DEREF` is about to return stays a copy of the same object. -/
theorem actEffect_derefNames (sound : Sound cfg s) (right : RightSlot s a)
    (act : ActEffect cfg s a t e) {r l : Nat} (before : (s.thread r).sectionVersion = some l)
    {pc : Pc} (sees : DerefSees cfg init s r l pc) (names : DerefNames s l pc) :
    DerefNames (s.apply t e.1 e.2) l pc := by
  have le := (sound.grace.section_le r l before).2
  have stays {o v : Nat} {c : CopyAddr}
      (keeps : ∀ v, (s.thread c.owner).flight = some v → v ≤ l → Kept cfg init s l o c)
      (names : ∀ v, (s.thread c.owner).flight = some v → v ≤ l → Names s c o)
      (flight : ((s.apply t e.1 e.2).thread c.owner).flight = some v) (le' : v ≤ l) :
      Names (s.apply t e.1 e.2) c o := by
    rcases actEffect_flight sound.wf sound.grace right act flight with old | new
    · exact (names v old le').congr
        (actEffect_kept_wsObj sound right act le (sound.waited_le before) (keeps v old le'))
    · omega
  cases pc with
  | deref q =>
    cases q with
    | owner p c =>
      cases p with
      | actual o => exact fun v flight le' => stays sees.2.2.2 names flight le'
      | null | copy => trivial
    | version p c thId =>
      cases p with
      | actual o => exact fun v flight le' => stays sees.2.2.2 names flight le'
      | null | copy => trivial
    | header | slow => trivial
  | _ => trivial

theorem deref_names (sound : Sound cfg s) {l : Nat} {q q' : DerefPc}
    (hpc : (s.thread t).pc = .deref q) (names : DerefNames s l (.deref q))
    (next : (derefStep s t (s.thread t) q).1.pc = .deref q') : DerefNames s l (.deref q') := by
  cases q with
  | header p =>
    simp only [derefStep] at next
    split_ifs at next
    · cases next
    · cases next
      trivial
  | slow p =>
    simp only [derefStep] at next
    split at next
    · cases next
    · cases next
    · rename_i c held
      cases next
      cases p with
      | actual o => exact fun v _ _ => sound.names_of_held held
      | null | copy => trivial
  | owner p c =>
    simp only [derefStep] at next
    split_ifs at next with mine
    · cases next
    · cases next
      cases p with
      | actual o => exact names
      | null | copy => trivial
    · cases next
  | version p c thId =>
    simp only [derefStep] at next
    split at next
    · split_ifs at next <;> cases next
    · cases next

theorem deref_returns_named (sound : Sound cfg s) {o l : Nat} {q : DerefPc} {c : CopyAddr}
    (version : (s.thread t).sectionVersion = some l) (hpc : (s.thread t).pc = .deref q)
    (sees : DerefSees cfg init s t l (.deref q)) (names : DerefNames s l (.deref q))
    (returns : derefStep s t (s.thread t) q = derefReturn (s.thread t) (.actual o) (.copy c)) :
    Names s c o := by
  cases q with
  | header p =>
    simp only [derefStep] at returns
    split_ifs at returns
    · obtain ⟨rfl, e⟩ := derefReturn_inj returns
      cases e
    · cases congrArg (fun e => e.1.pc) returns
  | slow p =>
    simp only [derefStep] at returns
    split at returns
    · obtain ⟨rfl, e⟩ := derefReturn_inj returns
      cases e
    · obtain ⟨rfl, e⟩ := derefReturn_inj returns
      cases e
    · cases congrArg (fun e => e.1.pc) returns
  | owner p c' =>
    simp only [derefStep] at returns
    split_ifs at returns with mine
    · obtain ⟨rfl, e⟩ := derefReturn_inj returns
      obtain rfl := Ptr.copy.inj e
      exact sound.names_of_held (sees.2.2.1 (sees.1.symm.trans mine))
    · cases congrArg (fun e => e.1.pc) returns
    · obtain ⟨rfl, e⟩ := derefReturn_inj returns
      cases e
  | version p c' thId =>
    simp only [derefStep] at returns
    split at returns
    · rename_i v shown
      split_ifs at returns with le
      · obtain ⟨rfl, e⟩ := derefReturn_inj returns
        obtain rfl := Ptr.copy.inj e
        obtain ⟨rfl, -⟩ := sees
        have local_eq := localVersion_of_version version (by rw [hpc]; rintro ⟨⟩)
        exact names v (sound.flight_of_shown (sound.grace.section_le t l version).2 shown
          (local_eq ▸ le)) (local_eq ▸ le)
      · obtain ⟨rfl, e⟩ := derefReturn_inj returns
        cases e
    · obtain ⟨rfl, e⟩ := derefReturn_inj returns
      cases e

/-! ### The invariant -/

omit [Inhabited ω] in
/-- A step that leaves its thread's log alone leaves all copies alone. -/
theorem State.apply_wsObj (log : e.1.objWriteSet = (s.thread t).objWriteSet) (c : CopyAddr) :
    (s.apply t e.1 e.2).wsObj c = s.wsObj c := by
  unfold State.wsObj
  rw [State.apply_thread]
  by_cases eq : c.owner = t
  · rw [eq, Function.update_self, log]
  · rw [Function.update_of_ne eq]

theorem tryLockStep_sees (sound : Sound cfg s) {q : TryLockPc} (hpc : (s.thread t).pc = .tryLock q)
    (sees : LockSees s t (s.thread t).pc) :
    LockSees (s.apply t (tryLockStep cfg s t (s.thread t) q).1 (tryLockStep cfg s t (s.thread t) q).2)
      t (tryLockStep cfg s t (s.thread t) q).1.pc := by
  have free (o : Nat) : LockSees (s.apply t (tryLockFree (s.thread t) o).1 (tryLockFree (s.thread t) o).2)
      t (tryLockFree (s.thread t) o).1.pc := by
    unfold tryLockFree
    split <;> trivial
  have fails (s' : State ω) : LockSees s' t (tryLockFail (s.thread t)).1.pc := by
    unfold tryLockFail
    split <;> trivial
  rw [hpc] at sees
  cases q with
  | header p =>
    cases p with
    | null => trivial
    | copy c =>
      simp only [tryLockStep]
      split <;> trivial
    | actual o =>
      simp only [tryLockStep]
      split
      · exact free o
      · trivial
      · rename_i c held
        have same : (s.apply t ((s.thread t).go (.tryLock (.owner o c))).1
            ((s.thread t).go (.tryLock (.owner o c))).2).wsObj c = s.wsObj c :=
          State.apply_wsObj rfl c
        refine ⟨?_, fun _ => held⟩
        rw [same]
        exact (sound.locks.copy_of_held sound.wf held).1
  | owner o c =>
    obtain ⟨id, held⟩ := sees
    simp only [tryLockStep]
    split_ifs with mine
    · have own : c.owner = t := id.symm.trans mine
      exact ⟨own, held own⟩
    · trivial
  | runCounter o c =>
    simp only [tryLockStep]
    split_ifs <;> trivial
  | syncStore v => exact fails _
  | cas o =>
    simp only [tryLockStep]
    split_ifs
    · trivial
    · exact fails _
  | storeActual | copy | check =>
    simp only [tryLockStep]
    split_ifs <;> trivial
  | _ => trivial

theorem actEffect_lockSees (sound : Sound cfg s) (right : RightSlot s a) (act : ActEffect cfg s a t e)
    (sees : ∀ u, LockSees s u (s.thread u).pc) (u : Nat) :
    LockSees (s.apply t e.1 e.2) u ((s.apply t e.1 e.2).thread u).pc := by
  have h := sound.wf.threads t
  have log := actEffect_log h right act
  rw [State.apply_thread]
  by_cases eq : u = t
  · subst eq
    rw [Function.update_self]
    cases hpc : e.1.pc with
    | tryLock q' =>
      have flow := actEffect_flow act
      rw [hpc] at flow
      rcases Pc.tryLock_of_nexts flow with pc | ⟨q, pc⟩
      · obtain ⟨p, rfl⟩ := act.tryLock_starts pc hpc
        trivial
      · obtain ⟨-, stepped⟩ := act.lib (by rw [pc]; rfl)
        rw [pc] at stepped
        obtain rfl : tryLockStep cfg s u (s.thread u) q = e := Option.some.inj stepped
        rw [← hpc]
        exact tryLockStep_sees sound pc (sees u)
    | _ => trivial
  · rw [Function.update_of_ne eq]
    have sees := sees u
    have kept {o : Nat} {c : CopyAddr} (own : c.owner = u) (held : s.hdr o = .copy c) :
        (s.apply t e.1 e.2).hdr o = .copy c :=
      (log.lockStep h).others_kept sound.locks (Ne.symm eq) own held
    cases hpc : (s.thread u).pc with
    | tryLock q =>
      rw [hpc] at sees
      cases q with
      | owner o c =>
        refine ⟨?_, fun own => kept own (sees.2 own)⟩
        unfold State.wsObj
        rw [State.apply_thread]
        by_cases mine : c.owner = t
        · rw [mine, Function.update_self]
          rcases (log.owned c.slot c.idx).1 with id | same
          · exact id
          · have id : ((s.thread c.owner).objWriteSet c.slot |>.buffer c.idx).threadId = c.owner := sees.1
            rw [mine] at id
            exact same.trans id
        · rw [Function.update_of_ne mine]
          exact sees.1
      | runCounter o c => exact ⟨sees.1, kept sees.1 sees.2⟩
      | _ => trivial
    | _ => trivial

theorem step_naming {s' : State ω} (sound : Sound cfg s) (sound' : Sound cfg s')
    (reading : Reading s) (snap : Snapshots cfg init s) (naming : Naming s) (right : RightSlot s a)
    (hs : step cfg s a = some s') : Naming s' := by
  rcases step_cases hs with ⟨rfl, rfl⟩ | ⟨t, e, -, act, rfl⟩
  · rw [sound.wf.threadInit]
    exact ⟨naming.derefs, naming.deref, naming.locks⟩
  · have h := sound.wf.threads t
    refine ⟨fun r l after d mem o c arg result => ?_, fun r l after => ?_,
      actEffect_lockSees sound right act naming.locks⟩
    · have here := after
      rw [State.apply_thread] at here mem
      by_cases eq : r = t
      · subst eq
        rw [Function.update_self] at here mem
        rcases actEffect_derefs sound.wf reading right act here with empty | ⟨before, notLocking, from_⟩
        · rw [empty] at mem
          cases mem
        · have old (mem : d ∈ (s.thread r).derefs) : Names (s.apply r e.1 e.2) c o :=
            actEffect_names sound sound' right act before after (snap.shown r l before d mem o arg)
              result (naming.derefs r l before d mem o c arg result)
          rcases from_ with same | ⟨p, q, rfl, source⟩
          · rw [same] at mem
            exact old mem
          · rcases List.mem_cons.mp mem with rfl | mem
            · obtain rfl : p = .actual o := arg
              obtain rfl : q = .copy c := result
              rcases source with ⟨-, -, same⟩ | ⟨q', pc, returns⟩
              · cases same
              · exact (deref_returns_named sound before pc (pc ▸ snap.sees r l before)
                  (pc ▸ naming.deref r l before) returns).congr (State.apply_wsObj rfl c)
            · exact old mem
      · rw [Function.update_of_ne eq] at here mem
        exact actEffect_names sound sound' right act here after (snap.shown r l here d mem o arg)
          result (naming.derefs r l here d mem o c arg result)
    · rw [State.apply_thread] at after ⊢
      by_cases eq : r = t
      · subst eq
        rw [Function.update_self] at after ⊢
        cases hpc : e.1.pc with
        | deref q =>
          rcases actEffect_deref act hpc with ⟨p, rfl⟩ | ⟨q', from_, effect⟩
          · trivial
          · have before := actEffect_deref_version sound.wf act from_ after
            have sees := deref_sees sound (snap.views r l before) from_
              (from_ ▸ snap.sees r l before) (effect ▸ hpc)
            have names := deref_names sound from_ (from_ ▸ naming.deref r l before)
              (effect ▸ hpc)
            exact actEffect_derefNames sound right act before sees names
        | _ => trivial
      · rw [Function.update_of_ne eq] at after ⊢
        exact actEffect_derefNames sound right act after (snap.sees r l after)
          (naming.deref r l after)

end Step

theorem reachable_naming [Inhabited ω] {cfg : Config} {init : Nat → Nat → ω}
    {ok : State ω → Act ω → Prop} (orderly : ∀ s a, ok s a → Orderly s a) {s : State ω}
    (h : ReachableFrom cfg init ok s) : Naming s := by
  refine System.Reachable.invariant_of Naming
    (fun _ h => And.intro (reachable_sound orderly (ReachableFrom.reachable h))
      (And.intro (reachable_reading orderly (ReachableFrom.reachable h))
        (reachable_snapshots orderly h))) ?_ (fun s a s' known known' naming allowed hs => ?_) h
  · rintro _ rfl
    refine ⟨fun r l version => ?_, fun _ _ _ => trivial, fun _ => trivial⟩
    unfold Thread.sectionVersion at version
    cases version
  · exact step_naming known.1 known'.1 known.2.1 known.2.2 naming (orderly s a allowed).1 hs

end ReadLogUpdate
