import ReadLogUpdate.RluList.Knows

/-!
# The steps of a call

What a thread knows at one point of its call gives what it knows at the next.
-/

namespace ReadLogUpdate.RluList

open Harris (ListT listValMin listValMax)
open Chain

/-- The write set of the section makes the change of the call on the list that the section sees. -/
structure Ready (init : Nat → Nat → Word) (list : ListT) (V : Nat → Nat → Word) (th : Thread Word)
    (op : Harris.Op) (v : Int) : Prop where
  twin : Twin init list V th th.wsTailCounter
  update : op ≠ .contains
  adds : op = .add → (splice th th.wsTailCounter).Adds (next V) (key init) list.pHead list.pMax ∧
    key init (splice th th.wsTailCounter).new = v
  removes : op = .remove → (splice th th.wsTailCounter).Removes (next V) list.pMax ∧
    key init (splice th th.wsTailCounter).after = v

/-- The result of a call on a list of the keys `S`. -/
def Answers (op : Harris.Op) (v : Int) (result : Bool) (S : Finset Int) : Prop :=
  match op with
  | .add => result = true ↔ v ∉ S
  | .contains | .remove => result = true ↔ v ∈ S

/-- Both nodes are locked, and `p` is the copy of the first. -/
structure Both (t : Nat) (V : Nat → Nat → Word) (th : Thread Word) (x : Nat) (p : Ptr) : Prop where
  here : th.pc = .inSection
  count : th.cur.numOfObjs = 2
  write : th.isWriteDetected = true
  first : Holds th V 0 x
  second : Holds th V 1 (next V x)
  copy : p = .copy ⟨t, th.wsCurId, 0⟩

def Settled (th : Thread Word) : Prop :=
  th.pc = .inSection ∨ (∃ line pc, th.pc = .failed line pc) ∨ ∃ pc, th.pc = .fault pc

/-- What thread `t` with record `th` knows when its section sees the contents `V`. -/
def Knows (init : Nat → Nat → Word) (list : ListT) (t : Nat) (th : Thread Word)
    (V : Nat → Nat → Word) : Pc → Prop
  | .derefHead _ _ => Starting th
  | .prev _ _ => th.isWriteDetected = false ∧ Awaits th list.pHead
  | .loadNext _ v prev => th.isWriteDetected = false ∧ th.pc = .inSection ∧
      ∃ x, Denotes th prev x ∧ Behind init list V v x
  | .loadVal _ v prev => th.isWriteDetected = false ∧
      ∃ x, Denotes th prev x ∧ Behind init list V v x ∧ Awaits th (next V x)
  | .loadN v prev n => th.isWriteDetected = false ∧ th.pc = .inSection ∧
      ∃ x, Denotes th prev x ∧ Behind init list V v x ∧ Denotes th n (next V x) ∧
        key init (next V x) = v
  | .takeN v prev n => th.isWriteDetected = false ∧
      ∃ x, Denotes th prev x ∧ Behind init list V v x ∧ Denotes th n (next V x) ∧
        key init (next V x) = v ∧ Awaits th (next V (next V x))
  | .lockPrev v n prev next_ => th.isWriteDetected = false ∧ th.pc = .inSection ∧
      ∃ x, Denotes th prev x ∧ Denotes th next_ (next V x) ∧ Plan init list th V v x n
  | .lockNext v n next_ =>
      ∃ x, Denotes th next_ (next V x) ∧ Plan init list th V v x n ∧ Locking t th V 0 x th.pc
  | .locked v n prev =>
      ∃ x, Plan init list th V v x n ∧ Holds th V 0 x ∧ prev = .copy ⟨t, th.wsCurId, 0⟩ ∧
        Locking t th V 1 (next V x) th.pc
  | .malloc v prev next_ => ∃ x, Plan init list th V v x none ∧ Both t V th x prev ∧
      next_ = .copy ⟨t, th.wsCurId, 1⟩
  | .assign v prev new none => ∃ x, Plan init list th V v x none ∧ Both t V th x prev ∧
      ∃ a, new = .actual a ∧ init a 0 = .val v ∧ init a 1 = .ptr (.actual (next V x))
  | .assign v prev new (some _) => ∃ x, Plan init list th V v x (some new) ∧ Both t V th x prev
  | .free v _ => th.pc = .inSection ∧ th.isWriteDetected = true ∧ Ready init list V th .remove v ∧
      ∀ S, Lists (next V) (key init) list.pHead list.pMax S → Answers .remove v true S
  | .readerUnlock op v result => Settled th ∧
      (∀ S, Lists (next V) (key init) list.pHead list.pMax S → Answers op v result S) ∧
      (th.isWriteDetected = true → result = true ∧ Ready init list V th op v) ∧
      (result = true → op ≠ .contains → th.isWriteDetected = true)
  | _ => True

variable {cfg : Config} {init : Nat → Nat → Word} {list : ListT} {used : Nat → Bool}
  {s : ReadLogUpdate.State Word} {t : Nat} {pc : Pc}

theorem Plan.le {th : Thread Word} {V : Nat → Nat → Word} {v : Int} {x : Nat} {n : Option Ptr}
    (plan : Plan init list th V v x n) : v ≤ key init (next V x) := by
  cases n with
  | none => exact plan.2.le
  | some n => exact plan.2.1.ge

theorem Plan.ne {th : Thread Word} {V : Nat → Nat → Word} {v : Int} {x : Nat} {n : Option Ptr}
    (plan : Plan init list th V v x n) : x ≠ next V x := by
  intro eq
  have lt := plan.behind.2.2.trans_le plan.le
  rw [← eq] at lt
  exact lt_irrefl _ lt

/-! ### Steps inside the library -/

section Lib
variable {e : Effect Word}

theorem libStep_inSection {th : Thread Word} (settled : Settled th) :
    libStep cfg s t th th.pc = none := by
  rcases settled with pc | ⟨line, pc', pc⟩ | ⟨pc', pc⟩ <;>
  · rw [pc]
    rfl

theorem Starting.step (known : Known cfg init s) (starting : Starting (s.thread t))
    (act : ActEffect cfg s (.lib t) t e) : Starting e.1 := by
  have flow := actEffect_flow act
  have control := (known.sound.wf.threads t).control
  unfold Starting at starting ⊢
  have stopped {pc : ReadLogUpdate.Pc} (hpc : (s.thread t).pc = pc) (empty : pc.nexts = []) : False := by
    rw [hpc, empty] at flow
    cases flow
  cases hpc : (s.thread t).pc with
  | syncCheckpoint k =>
    rw [hpc] at starting flow
    obtain rfl : k = .readerLock := by simpa [Pc.kind] using starting
    have flow : e.1.pc.kind = .sync .readerLock ∨ e.1.pc.kind = .readerLock := by
      simpa [Pc.nexts, Caller.nexts] using flow
    rcases flow with kind | kind
    · exact .inr (.inl kind)
    · exact .inr (.inr (.inl kind))
  | sync k q =>
    rw [hpc] at starting flow
    obtain rfl : k = .readerLock := by simpa [Pc.kind] using starting
    have flow : e.1.pc.kind = .sync .readerLock ∨ e.1.pc.kind = .readerLock ∨
        (∃ line, e.1.pc.kind = .failed line) ∨ e.1.pc.kind = .fault := by
      cases q <;> simp [Pc.nexts, Caller.nexts] at flow <;> aesop
    rcases flow with kind | kind | kind | kind
    · exact .inr (.inl kind)
    · exact .inr (.inr (.inl kind))
    · exact .inr (.inr (.inr (.inl kind)))
    · exact .inr (.inr (.inr (.inr (.inl kind))))
  | readerLock q =>
    obtain ⟨-, stepped⟩ := act.lib (by rw [hpc]; rfl)
    rw [hpc] at stepped control
    obtain rfl : readerLockStep s (s.thread t) q = e := Option.some.inj stepped
    cases q with
    | register =>
      simp only [readerLockStep]
      split_ifs
      · exact .inr (.inr (.inl rfl))
      · exact .inr (.inr (.inr (.inl ⟨424, rfl⟩)))
    | loadVersion | storeVersion v => exact .inr (.inr (.inl rfl))
    | loadCommit => exact .inr (.inr (.inr (.inr (.inr ⟨rfl, control.2⟩))))
  | inSection =>
    rcases act with ⟨op, act, -⟩ | ⟨-, stepped⟩
    · cases act
    · rw [hpc] at stepped
      cases stepped
  | failed line pc => exact (stopped hpc rfl).elim
  | fault pc => exact (stopped hpc rfl).elim
  | _ =>
    rw [hpc] at starting
    simp [Pc.kind] at starting

theorem Knows.lib (known : Known cfg init s) (words : 2 ≤ cfg.objWords)
    (right : RightSlot s (.lib t)) (act : ActEffect cfg s (.lib t) t e)
    (knows : Knows init list t (s.thread t) (view init s t) pc) :
    Knows init list t e.1 (view init (s.apply t e.1 e.2) t) pc := by
  have stepped : libStep cfg s t (s.thread t) (s.thread t).pc = some e := by
    rcases act with ⟨op, act, -⟩ | ⟨-, stepped⟩
    · cases act
    · exact stepped
  have stops (settled : Settled (s.thread t)) {p : Prop} : p := by
    rw [libStep_inSection settled] at stepped
    cases stepped
  have awaited {x : Nat} (clean : (s.thread t).isWriteDetected = false)
      (awaits : Awaits (s.thread t) x) : Awaits e.1 x ∧ (∀ d ∈ (s.thread t).derefs, d ∈ e.1.derefs) ∧
      e.1.isWriteDetected = false ∧ view init (s.apply t e.1 e.2) t = view init s t := by
    rcases awaits with ⟨q, hpc, arg⟩ | ⟨hpc, -⟩
    · obtain ⟨inside, here⟩ := known.inSection (t := t) (by rw [hpc]; exact .inr (.inl rfl))
      have eff := stepped
      rw [hpc] at eff
      obtain rfl : derefStep s t (s.thread t) q = e := Option.some.inj eff
      obtain ⟨awaits, sub, version, write⟩ := deref_step hpc arg (inside.2.2.2.2.1 clean)
      exact ⟨awaits, sub, write.trans clean, known.view_own right act here version⟩
    · exact stops (.inl hpc)
  have locks {k x : Nat} (locking : Locking t (s.thread t) (view init s t) k x (s.thread t).pc)
      (others : ∀ i < k, ((s.thread t).cur.buffer i).pObjActual ≠ x) :
      LockKeeps t (view init s t) k x (s.thread t) e.1 ∧
        view init (s.apply t e.1 e.2) t = view init s t := by
    cases hpc : (s.thread t).pc with
    | tryLock q =>
      obtain ⟨-, here⟩ := known.inSection (t := t) (by rw [hpc]; exact .inr (.inr (.inl rfl)))
      have eff := stepped
      rw [hpc] at eff
      obtain rfl : tryLockStep cfg s t (s.thread t) q = e := Option.some.inj eff
      have keeps := known.tryLock_step words hpc (hpc ▸ locking) others
      exact ⟨keeps, known.view_own right act here keeps.version⟩
    | inSection => exact stops (.inl hpc)
    | failed line pc => exact stops (.inr (.inl ⟨line, pc, hpc⟩))
    | fault pc => exact stops (.inr (.inr ⟨pc, hpc⟩))
    | mustAbort =>
      rw [hpc] at stepped
      cases stepped
    | _ =>
      rw [hpc] at locking
      exact locking.elim
  cases pc with
  | derefHead op v => exact Starting.step known knows act
  | prev op v =>
    obtain ⟨clean, awaits⟩ := knows
    obtain ⟨awaits', -, clean', -⟩ := awaited clean awaits
    exact ⟨clean', awaits'⟩
  | loadVal op v prev =>
    obtain ⟨clean, x, denotes, behind, awaits⟩ := knows
    obtain ⟨awaits', sub, clean', same⟩ := awaited clean awaits
    rw [same]
    exact ⟨clean', x, denotes.mono sub, behind, awaits'⟩
  | takeN v prev n =>
    obtain ⟨clean, x, denotes, behind, denotes', at_, awaits⟩ := knows
    obtain ⟨awaits', sub, clean', same⟩ := awaited clean awaits
    rw [same]
    exact ⟨clean', x, denotes.mono sub, behind, denotes'.mono sub, at_, awaits'⟩
  | lockNext v n next_ =>
    obtain ⟨x, denotes, plan, locking⟩ := knows
    obtain ⟨keeps, same⟩ := locks locking fun i lt => absurd lt (Nat.not_lt_zero i)
    have sub : ∀ d ∈ (s.thread t).derefs, d ∈ e.1.derefs := fun d mem => keeps.derefs ▸ mem
    rw [same]
    exact ⟨x, denotes.mono sub, plan.mono sub, keeps.locking⟩
  | locked v n prev =>
    obtain ⟨x, plan, first, copy, locking⟩ := knows
    have ne := plan.ne
    obtain ⟨keeps, same⟩ := locks locking fun i lt => by
      obtain rfl : i = 0 := by omega
      rw [first.1]
      exact ne
    have sub : ∀ d ∈ (s.thread t).derefs, d ∈ e.1.derefs := fun d mem => keeps.derefs ▸ mem
    rw [same]
    exact ⟨x, plan.mono sub, first.congr (keeps.older 0 (by omega)), by rw [keeps.curId]; exact copy,
      keeps.locking⟩
  | loadNext op v prev => exact stops (.inl knows.2.1)
  | loadN v prev n => exact stops (.inl knows.2.1)
  | lockPrev v n prev next_ => exact stops (.inl knows.2.1)
  | malloc v prev next_ =>
    obtain ⟨x, -, both, -⟩ := knows
    exact stops (.inl both.here)
  | assign v prev new n =>
    cases n with
    | none =>
      obtain ⟨x, -, both, -⟩ := knows
      exact stops (.inl both.here)
    | some n =>
      obtain ⟨x, -, both⟩ := knows
      exact stops (.inl both.here)
  | free v n => exact stops (.inl knows.1)
  | readerUnlock op v result => exact stops knows.1
  | idle | done | readerLock | leaving => trivial

end Lib

/-! ### Steps that call the library -/

section Client
variable {e : Effect Word}

theorem call_inSection {op : ReadLogUpdate.Op Word} {th : Thread Word}
    (called : call cfg s t th op th.pc = some e)
    (inner : (∃ p, op = .deref p) ∨ (∃ p, op = .tryLock p) ∨ (∃ c w x, op = .store c w x) ∨
      (∃ p, op = .free p) ∨ op = .readerUnlock) :
    th.pc = .inSection ∧ callInSection cfg s t th op = some e := by
  cases hpc : th.pc with
  | inSection =>
    rw [hpc] at called
    exact ⟨rfl, called⟩
  | idle =>
    rw [hpc] at called
    rcases inner with ⟨p, rfl⟩ | ⟨p, rfl⟩ | ⟨c, w, x, rfl⟩ | ⟨p, rfl⟩ | rfl <;> cases called
  | mustAbort =>
    rw [hpc] at called
    rcases inner with ⟨p, rfl⟩ | ⟨p, rfl⟩ | ⟨c, w, x, rfl⟩ | ⟨p, rfl⟩ | rfl <;> cases called
  | _ =>
    rw [hpc] at called
    cases called

theorem deref_call {x : Nat} {th : Thread Word}
    (called : callInSection cfg s t th (.deref (.actual x)) = some e)
    (clean : th.cur.numOfObjs = 0) :
    Awaits e.1 x ∧ (∀ d ∈ th.derefs, d ∈ e.1.derefs) ∧ e.1.localVersion = th.localVersion ∧
      e.1.isWriteDetected = th.isWriteDetected := by
  have unlocked : th.hasLocked x = false := by
    unfold Thread.hasLocked
    rw [clean]
    rfl
  by_cases unlocked' : th.isCheckLocks = false ∨ Ptr.actual x = .null
  · have eff : some (derefReturn th (.actual x) (.actual x)) = some e := by
      rw [← called]
      exact (if_pos unlocked').symm
    rw [← Option.some.inj eff]
    refine ⟨.inr ⟨rfl, ⟨.actual x, .actual x, th.hasLocked x⟩, List.mem_cons_self, rfl, rfl, unlocked⟩,
      fun d mem => List.mem_cons_of_mem _ mem, rfl, rfl⟩
  · have eff : some (th.go (.deref (.header (.actual x)))) = some e := by
      rw [← called]
      exact (if_neg unlocked').symm
    rw [← Option.some.inj eff]
    exact ⟨.inl ⟨_, rfl, rfl⟩, fun d mem => mem, rfl, rfl⟩

/-- A call of `rlu_try_lock` for a node that `RLU_DEREF` has returned. -/
theorem Known.tryLock_call (known : Known cfg init s) {p : Ptr} {k x : Nat}
    (hpc : (s.thread t).pc = .inSection) (denotes : Denotes (s.thread t) p x)
    (called : callInSection cfg s t (s.thread t) (.tryLock p) = some e)
    (count : (s.thread t).cur.numOfObjs = k) :
    LockKeeps t (view init s t) k x (s.thread t) e.1 := by
  obtain ⟨-, here⟩ := known.inSection (t := t) (by rw [hpc]; exact .inl rfl)
  have notNull : p ≠ .null := by
    rcases known.denotes_cases here denotes with rfl | ⟨c, rfl, -⟩ <;> simp
  have eff : some ({ s.thread t with inLock := false }.go (.tryLock (.header p))) = some e := by
    rw [← called]
    exact (if_neg notNull).symm
  rw [← Option.some.inj eff]
  exact ⟨⟨.inr denotes, count⟩, fun _ _ => rfl, rfl, rfl, rfl⟩

theorem IsList.next_node {c : Nat → Nat → Word} (isList : IsList init list used c)
    (zero : used 0 = false) {x : Nat} (reached : Reached list c x) (outer : x ≠ list.pMax) :
    Reached list c (next c x) ∧ (c x 1).toPtr = .actual (next c x) := by
  obtain ⟨S, lists⟩ := isList.lists
  have there := lists.reached_next reached outer
  refine ⟨there, ?_⟩
  have nonzero : next c x ≠ 0 := by
    intro eq
    have use := isList.reached _ there
    rw [eq, zero] at use
    cases use
  have plain := (isList.typed.plain x (isList.reached x reached)).eq
  rw [plain]
  show ofAddr (next c x) = _
  exact if_neg nonzero

/-- The store into the copy of the first node makes the write set an update of the list. -/
theorem Both.stored {th : Thread Word} {V : Nat → Nat → Word} {x y : Nat} {p : Ptr}
    (both : Both t V th x p) (ok : ThreadOk cfg t th) (isList : IsList init list used V)
    (reached : Reached list V x) (outer : x ≠ list.pMax) (nonzero : y ≠ 0)
    (change : (⟨x, next V x, y⟩ : Splice Nat).Adds (next V) (key init) list.pHead list.pMax ∨
      (⟨x, next V x, y⟩ : Splice Nat).Removes (next V) list.pMax) {th' : Thread Word}
    (eff : th' = ((th.modifyObj th.wsCurId 0 fun e =>
      { e with copy := Function.update e.copy 1 (.ptr (.actual y)) }).go .inSection).1) :
    Twin init list V th' th'.wsTailCounter ∧
      splice th' th'.wsTailCounter = ⟨x, next V x, y⟩ := by
  have tail : th'.wsTailCounter = th.wsTailCounter := by rw [eff]; rfl
  have cur : th'.objWriteSet (wsIndex th.wsTailCounter) = th.cur.modifyObj 0 fun e =>
      { e with copy := Function.update e.copy 1 (.ptr (.actual y)) } := by
    rw [eff, ← ok.curId]
    exact Function.update_self _ _ _
  obtain ⟨actual₀, val₀, next₀⟩ := both.first
  obtain ⟨actual₁, val₁, next₁⟩ := both.second
  have first : th'.entry th.wsTailCounter 0 = { th.cur.buffer 0 with
      copy := Function.update (th.cur.buffer 0).copy 1 (.ptr (.actual y)) } := by
    unfold Thread.entry
    rw [cur, WriteSet.modifyObj_buffer_self]
  have second : th'.entry th.wsTailCounter 1 = th.cur.buffer 1 := by
    unfold Thread.entry
    rw [cur, WriteSet.modifyObj_buffer_of_ne _ _ (by omega)]
  have there : Reached list V (next V x) := reached.tail ⟨outer, rfl⟩
  have eq : splice th' th.wsTailCounter = ⟨x, next V x, y⟩ := by
    unfold splice
    rw [first, second, actual₁, ← actual₀]
    rfl
  rw [tail]
  refine ⟨⟨?_, fun i lt => ?_, ?_, ?_, ?_⟩, eq⟩
  · rw [cur]
    exact both.count
  · obtain rfl | rfl : i = 0 ∨ i = 1 := by omega
    · rw [first]
      show (th.cur.buffer 0).copy 0 = init (th.cur.buffer 0).pObjActual 0
      rw [val₀, actual₀]
      exact isList.typed.val x (isList.reached x reached)
    · rw [second, val₁, actual₁]
      exact isList.typed.val _ (isList.reached _ there)
  · rw [first]
    exact ⟨y, congrArg Word.ptr (if_neg nonzero).symm⟩
  · rw [second, next₁, actual₁]
  · rw [eq]
    exact ⟨reached, outer, rfl, change⟩

theorem Ready.congr {V : Nat → Nat → Word} {th th' : Thread Word} {op : Harris.Op} {v : Int}
    (ready : Ready init list V th op v) (tail : th'.wsTailCounter = th.wsTailCounter)
    (same : th'.objWriteSet (wsIndex th.wsTailCounter) = th.objWriteSet (wsIndex th.wsTailCounter)) :
    Ready init list V th' op v := by
  have eq := splice_congr same
  refine ⟨?_, ready.update, fun is => ?_, fun is => ?_⟩
  · rw [tail]
    exact ready.twin.congr same
  · rw [tail, eq]
    exact ready.adds is
  · rw [tail, eq]
    exact ready.removes is

/-- The place of a plan is the one that a traversal finds. -/
theorem Behind.place {V : Nat → Nat → Word} {v : Int} {x : Nat} (behind : Behind init list V v x)
    (le : v ≤ key init (next V x)) : Place (next V) (key init) list.pHead list.pMax v x :=
  ⟨behind.1, behind.2.1, behind.2.2, le⟩

/-- A call of `rlu_free` leaves the write set as it is. -/
theorem free_call {th : Thread Word} {p : Ptr} (eff : rluFree s th p = e) :
    Settled e.1 ∧ e.1.isWriteDetected = th.isWriteDetected ∧ e.1.wsTailCounter = th.wsTailCounter ∧ e.1.objWriteSet = th.objWriteSet ∧
      e.1.localVersion = th.localVersion := by
  rw [← eff]
  unfold rluFree
  split
  · exact ⟨.inl rfl, rfl, rfl, rfl, rfl⟩
  · split_ifs
    · exact ⟨.inl rfl, rfl, rfl, rfl, rfl⟩
    · exact ⟨.inr (.inl ⟨_, _, rfl⟩), rfl, rfl, rfl, rfl⟩
    · exact ⟨.inr (.inl ⟨_, _, rfl⟩), rfl, rfl, rfl, rfl⟩
  · exact ⟨.inr (.inr ⟨_, rfl⟩), rfl, rfl, rfl, rfl⟩

theorem store_call {th : Thread Word} {y : Word} (some_ : 0 < th.cur.numOfObjs)
    (called : callInSection cfg s t th (.store ⟨t, th.wsCurId, 0⟩ 1 y) = some e) :
    e = (th.modifyObj th.wsCurId 0 fun e => { e with copy := Function.update e.copy 1 y }).go
      .inSection := by
  have eff : some ((th.modifyObj th.wsCurId 0 fun e =>
      { e with copy := Function.update e.copy 1 y }).go .inSection) = some e := by
    rw [← called]
    exact (if_pos ⟨rfl, rfl, some_⟩).symm
  exact (Option.some.inj eff).symm

theorem Knows.request (known : Known cfg init s) (words : 2 ≤ cfg.objWords)
    (listed : Listed init list used s) (zero : used 0 = false) {op : ReadLogUpdate.Op Word}
    {pc' : Pc} (req : request list s (s.thread t) pc = some (op, pc'))
    (called : call cfg s t (s.thread t) op (s.thread t).pc = some e)
    (knows : Knows init list t (s.thread t) (view init s t) pc)
    (range : ∀ v, pc.val = some v → key init list.pHead < v ∧ v < key init list.pMax)
    (fresh : ∀ v p a, pc = .assign v p (.actual a) none → ¬ Reached list (view init s t) a ∧
      view init s t a 1 = init a 1 ∧ a ≠ 0) :
    Knows init list t e.1 (view init (s.apply t e.1 e.2) t) pc' := by
  have act : ActEffect cfg s (.call t op) t e := .inl ⟨op, rfl, called⟩
  have ok := known.sound.wf.threads t
  have section_ (hpc : (s.thread t).pc = .inSection) :
      (s.thread t).Inside cfg ∧ InSection s t := known.inSection (by rw [hpc]; exact .inl rfl)
  have right : RightSlot s (.call t op) := by
    unfold RightSlot
    trivial
  have same (hpc : (s.thread t).pc = .inSection)
      (version : e.1.localVersion = (s.thread t).localVersion) :
      view init (s.apply t e.1 e.2) t = view init s t :=
    known.view_own right act (section_ hpc).2 version
  have clean (hpc : (s.thread t).pc = .inSection)
      (write : (s.thread t).isWriteDetected = false) : (s.thread t).cur.numOfObjs = 0 :=
    (section_ hpc).1.2.2.2.2.1 write
  have isList (hpc : (s.thread t).pc = .inSection) : IsList init list used (view init s t) :=
    known.view_isList listed (section_ hpc).2
  cases pc with
  | readerLock op v =>
    obtain ⟨rfl, rfl⟩ := Prod.mk.inj (Option.some.inj req)
    refine .inl ?_
    cases hpc : (s.thread t).pc with
    | idle =>
      rw [hpc] at called
      obtain rfl : (s.thread t).go (.syncCheckpoint .readerLock) = e := Option.some.inj called
      rfl
    | inSection | mustAbort =>
      rw [hpc] at called
      cases called
    | _ =>
      rw [hpc] at called
      cases called
  | derefHead op v =>
    obtain ⟨rfl, rfl⟩ := Prod.mk.inj (Option.some.inj req)
    obtain ⟨hpc, called⟩ := call_inSection called (.inl ⟨_, rfl⟩)
    have write : (s.thread t).isWriteDetected = false := by
      have starting : Starting (s.thread t) := knows
      unfold Starting at starting
      rw [hpc] at starting
      simpa [ReadLogUpdate.Pc.kind] using starting
    obtain ⟨awaits, -, -, write'⟩ := deref_call called (clean hpc write)
    exact ⟨write'.trans write, awaits⟩
  | loadNext op v prev =>
    obtain ⟨write, hpc, x, denotes, behind⟩ := knows
    obtain ⟨-, here⟩ := section_ hpc
    have node := (isList hpc).next_node zero behind.1 behind.2.1
    have req : (s.load prev 1).map (fun p => (Op.deref p.toPtr, Pc.loadVal op v prev)) = _ := req
    rw [known.load here denotes (by omega), Option.map_some, node.2] at req
    obtain ⟨rfl, rfl⟩ := Prod.mk.inj (Option.some.inj req)
    obtain ⟨-, called⟩ := call_inSection called (.inl ⟨_, rfl⟩)
    obtain ⟨awaits, sub, version, write'⟩ := deref_call called (clean hpc write)
    rw [same hpc version]
    exact ⟨write'.trans write, x, denotes.mono sub, behind, awaits⟩
  | loadN v prev n =>
    obtain ⟨write, hpc, x, denotes, behind, denotes', at_⟩ := knows
    obtain ⟨-, here⟩ := section_ hpc
    have inner : next (view init s t) x ≠ list.pMax := by
      intro eq
      rw [eq] at at_
      exact (range v rfl).2.ne' at_
    have node := (isList hpc).next_node zero
      ((isList hpc).next_node zero behind.1 behind.2.1).1 inner
    have req : (s.load n 1).map (fun p => (Op.deref p.toPtr, Pc.takeN v prev n)) = _ := req
    rw [known.load here denotes' (by omega), Option.map_some, node.2] at req
    obtain ⟨rfl, rfl⟩ := Prod.mk.inj (Option.some.inj req)
    obtain ⟨-, called⟩ := call_inSection called (.inl ⟨_, rfl⟩)
    obtain ⟨awaits, sub, version, write'⟩ := deref_call called (clean hpc write)
    rw [same hpc version]
    exact ⟨write'.trans write, x, denotes.mono sub, behind, denotes'.mono sub, at_, awaits⟩
  | lockPrev v n prev next_ =>
    obtain ⟨write, hpc, x, denotes, denotes', plan⟩ := knows
    obtain ⟨rfl, rfl⟩ := Prod.mk.inj (Option.some.inj req)
    obtain ⟨-, called⟩ := call_inSection called (.inr (.inl ⟨_, rfl⟩))
    have keeps := known.tryLock_call hpc denotes called (clean hpc write)
    have sub : ∀ d ∈ (s.thread t).derefs, d ∈ e.1.derefs := fun d mem => keeps.derefs ▸ mem
    rw [same hpc keeps.version]
    exact ⟨x, denotes'.mono sub, plan.mono sub, keeps.locking⟩
  | lockNext v n next_ =>
    obtain ⟨x, denotes, plan, locking⟩ := knows
    by_cases stop : (s.thread t).pc = .mustAbort
    · have req : some (Op.abort, Pc.readerLock (if n.isSome then .remove else .add) v) =
          some (op, pc') := by
        rw [← req]
        simp only [RluList.request, stop]
      obtain ⟨rfl, rfl⟩ := Prod.mk.inj (Option.some.inj req)
      trivial
    · have req : some (Op.tryLock next_, Pc.locked v n (s.thread t).ret) = some (op, pc') := by
        rw [← req]
        cases hpc : (s.thread t).pc <;> simp_all [RluList.request]
      obtain ⟨rfl, rfl⟩ := Prod.mk.inj (Option.some.inj req)
      obtain ⟨hpc, called⟩ := call_inSection called (.inr (.inl ⟨_, rfl⟩))
      rw [hpc] at locking
      obtain ⟨count, write, first, ret⟩ := locking
      have keeps := known.tryLock_call hpc denotes called count
      have sub : ∀ d ∈ (s.thread t).derefs, d ∈ e.1.derefs := fun d mem => keeps.derefs ▸ mem
      rw [same hpc keeps.version]
      refine ⟨x, plan.mono sub, first.congr (keeps.older 0 (by omega)), ?_, keeps.locking⟩
      rw [keeps.curId]
      exact ret
  | locked v n prev =>
    by_cases stop : (s.thread t).pc = .mustAbort
    · have req : some (Op.abort, Pc.readerLock (if n.isSome then .remove else .add) v) =
          some (op, pc') := by
        rw [← req]
        simp only [RluList.request, stop]
      obtain ⟨rfl, rfl⟩ := Prod.mk.inj (Option.some.inj req)
      trivial
    · have req : none = some (op, pc') := by
        rw [← req]
        cases hpc : (s.thread t).pc <;> simp_all [RluList.request]
      cases req
  | assign v prev new next_ =>
    obtain ⟨lo, hi⟩ := range v rfl
    cases next_ with
    | none =>
      obtain ⟨x, plan, both, a, rfl, val, link⟩ := knows
      obtain ⟨absent, contents, nonzero⟩ := fresh v prev a rfl
      have hpc := both.here
      obtain ⟨S, lists⟩ := (isList hpc).lists
      obtain ⟨behind, above⟩ := plan
      have keyed : key init a = v := by rw [key, val]; rfl
      have adds : (⟨x, next (view init s t) x, a⟩ : Splice Nat).Adds (next (view init s t)) (key init)
          list.pHead list.pMax := by
        refine ⟨absent, ?_, keyed ▸ behind.2.2, keyed ▸ above⟩
        show next (view init s t) a = _
        rw [next, contents, link]
        rfl
      have copied := both.copy
      subst copied
      have req : some (Op.store ⟨t, (s.thread t).wsCurId, 0⟩ 1 (Word.ptr (.actual a)),
          Pc.readerUnlock .add v true) = some (op, pc') := req
      obtain ⟨rfl, rfl⟩ := Prod.mk.inj (Option.some.inj req)
      obtain ⟨-, called⟩ := call_inSection called (.inr (.inr (.inl ⟨_, _, _, rfl⟩)))
      have eff := store_call (by rw [both.count]; omega) called
      obtain ⟨twin, spliced⟩ := both.stored ok (isList hpc) behind.1 behind.2.1 nonzero (.inl adds)
        (congrArg Prod.fst eff)
      rw [same hpc (by rw [eff]; rfl)]
      refine ⟨.inl (by rw [eff]; rfl), fun S lists => ?_,
        fun _ => ⟨rfl, twin, by simp, fun _ => ?_, by simp⟩,
        fun _ _ => by rw [eff]; exact both.write⟩
      · refine ⟨fun _ => ?_, fun _ => rfl⟩
        rw [(behind.place above.le).mem_iff lists lo hi]
        exact above.ne'
      · rw [spliced]
        exact ⟨adds, keyed⟩
    | some p =>
      obtain ⟨x, plan, both⟩ := knows
      have hpc := both.here
      obtain ⟨S, lists⟩ := (isList hpc).lists
      obtain ⟨behind, at_, denotes⟩ := plan
      have there := (isList hpc).next_node zero behind.1 behind.2.1
      have inner : next (view init s t) x ≠ list.pMax := by
        intro eq
        rw [eq] at at_
        exact hi.ne' at_
      have beyond := (isList hpc).next_node zero there.1 inner
      have nonzero : next (view init s t) (next (view init s t) x) ≠ 0 := by
        intro eq
        have use := (isList hpc).reached _ beyond.1
        rw [eq, zero] at use
        cases use
      have removes : (⟨x, next (view init s t) x, next (view init s t) (next (view init s t) x)⟩ :
          Splice Nat).Removes (next (view init s t)) list.pMax := ⟨inner, rfl⟩
      have copied := both.copy
      subst copied
      have req : some (Op.store ⟨t, (s.thread t).wsCurId, 0⟩ 1 (Word.ptr (s.forceActual new)),
          Pc.free v p) = some (op, pc') := req
      rw [known.forceActual (section_ hpc).2 denotes] at req
      obtain ⟨rfl, rfl⟩ := Prod.mk.inj (Option.some.inj req)
      obtain ⟨-, called⟩ := call_inSection called (.inr (.inr (.inl ⟨_, _, _, rfl⟩)))
      have eff := store_call (by rw [both.count]; omega) called
      obtain ⟨twin, spliced⟩ := both.stored ok (isList hpc) behind.1 behind.2.1 nonzero (.inr removes)
        (congrArg Prod.fst eff)
      rw [same hpc (by rw [eff]; rfl)]
      refine ⟨by rw [eff]; rfl, by rw [eff]; exact both.write, ⟨twin, by simp, by simp, fun _ => ?_⟩,
        fun S lists => ?_⟩
      · rw [spliced]
        exact ⟨removes, at_⟩
      · refine ⟨fun _ => ?_, fun _ => rfl⟩
        rw [(behind.place at_.ge).mem_iff lists lo hi]
        exact at_
  | free v next_ =>
    obtain ⟨hpc, write, ready, answers⟩ := knows
    obtain ⟨rfl, rfl⟩ := Prod.mk.inj (Option.some.inj req)
    obtain ⟨-, called⟩ := call_inSection called (.inr (.inr (.inr (.inl ⟨_, rfl⟩))))
    obtain ⟨settled, write', tail, sets, version⟩ := free_call (Option.some.inj called)
    rw [same hpc version]
    exact ⟨settled, answers, fun _ => ⟨rfl, ready.congr tail (by rw [sets])⟩,
      fun _ _ => write'.trans write⟩
  | readerUnlock op v result =>
    obtain ⟨rfl, rfl⟩ := Prod.mk.inj (Option.some.inj req)
    trivial
  | idle | done | prev | loadVal | takeN | malloc | leaving => cases req

end Client

/-! ### Other steps of a call -/

theorem Awaits.denotes {th : Thread Word} {x : Nat} (awaits : Awaits th x)
    (kind : th.pc.kind = .inSection) : th.pc = .inSection ∧ Denotes th th.ret x := by
  rcases awaits with ⟨q, pc, -⟩ | here
  · rw [pc] at kind
    cases kind
  · exact here

theorem Locking.both {th : Thread Word} {V : Nat → Nat → Word} {k x : Nat}
    (locking : Locking t th V k x th.pc) (kind : th.pc.kind = .inSection) :
    th.pc = .inSection ∧ th.cur.numOfObjs = k + 1 ∧ th.isWriteDetected = true ∧ Holds th V k x ∧
      th.ret = .copy ⟨t, th.wsCurId, k⟩ := by
  cases pc : th.pc with
  | inSection =>
    rw [pc] at locking
    exact ⟨rfl, locking⟩
  | _ =>
    rw [pc] at kind
    cases kind

theorem knows_found
    {op : Harris.Op} {v : Int} {prev n : Ptr} {x : Nat} (hpc : (s.thread t).pc = .inSection)
    (write : (s.thread t).isWriteDetected = false) (denotes : Denotes (s.thread t) prev x)
    (behind : Behind init list (view init s t) v x)
    (denotes' : Denotes (s.thread t) n (next (view init s t) x))
    (le : v ≤ key init (next (view init s t) x))
    (range : key init list.pHead < v ∧ v < key init list.pMax) :
    Knows init list t (s.thread t) (view init s t)
      (RluList.found op v (key init (next (view init s t) x)) prev n) := by
  have answers {S : Finset Int}
      (lists : Lists (next (view init s t)) (key init) list.pHead list.pMax S) :
      v ∈ S ↔ key init (next (view init s t) x) = v :=
    (behind.place le).mem_iff lists range.1 range.2
  have clean {p : Prop} (write' : (s.thread t).isWriteDetected = true) : p := by
    rw [write] at write'
    cases write'
  cases op with
  | contains =>
    refine ⟨.inl hpc, fun S lists => ?_, clean, fun _ other => absurd rfl other⟩
    show (_ == v) = true ↔ v ∈ S
    rw [answers lists, beq_iff_eq]
  | add =>
    unfold RluList.found
    dsimp only
    split_ifs with present
    · refine ⟨.inl hpc, fun S lists => ?_, clean, fun false_ => absurd false_ Bool.false_ne_true⟩
      show false = true ↔ v ∉ S
      rw [answers lists]
      simp [present]
    · exact ⟨write, hpc, x, denotes, denotes', behind, lt_of_le_of_ne le (Ne.symm present)⟩
  | remove =>
    unfold RluList.found
    dsimp only
    split_ifs with present
    · exact ⟨write, hpc, x, denotes, behind, denotes', present⟩
    · refine ⟨.inl hpc, fun S lists => ?_, clean, fun false_ => absurd false_ Bool.false_ne_true⟩
      show false = true ↔ v ∈ S
      rw [answers lists]
      simp [present]

theorem Knows.local_ (known : Known cfg init s) (words : 2 ≤ cfg.objWords)
    (listed : Listed init list used s) (zero : used 0 = false) {pc' : Pc}
    (moved : RluList.local_ s (s.thread t) pc = some pc')
    (knows : Knows init list t (s.thread t) (view init s t) pc)
    (range : ∀ v, pc.val = some v → key init list.pHead < v ∧ v < key init list.pMax) :
    Knows init list t (s.thread t) (view init s t) pc' := by
  have inner {q : Pc} (moved : (if (s.thread t).pc.kind = .inSection then some q else none) = some pc') :
      (s.thread t).pc.kind = .inSection ∧ q = pc' := by
    split_ifs at moved with kind
    · exact ⟨kind, Option.some.inj moved⟩
  cases pc with
  | prev op v =>
    obtain ⟨kind, rfl⟩ := inner moved
    obtain ⟨write, awaits⟩ := knows
    obtain ⟨hpc, denotes⟩ := awaits.denotes kind
    obtain ⟨-, here⟩ := known.inSection (t := t) (by rw [hpc]; exact .inl rfl)
    obtain ⟨S, lists⟩ := (known.view_isList listed here).lists
    exact ⟨write, hpc, list.pHead, denotes, .refl _, lists.outer, (range v rfl).1⟩
  | loadVal op v prev =>
    obtain ⟨write, x, denotes, behind, awaits⟩ := knows
    unfold RluList.local_ at moved
    dsimp only at moved
    split_ifs at moved with kind
    obtain ⟨hpc, denotes'⟩ := awaits.denotes kind
    obtain ⟨-, here⟩ := known.inSection (t := t) (by rw [hpc]; exact .inl rfl)
    have isList := known.view_isList listed here
    have node := isList.next_node zero behind.1 behind.2.1
    have val : (view init s t (next (view init s t) x) 0).toVal = key init (next (view init s t) x) := by
      rw [isList.typed.val _ (isList.reached _ node.1)]
      rfl
    rw [known.load here denotes' (by omega), Option.map_some, val] at moved
    obtain rfl := Option.some.inj moved
    split_ifs with below
    · refine ⟨write, hpc, next (view init s t) x, denotes', node.1, ?_, below⟩
      intro eq
      rw [eq] at below
      exact absurd below (range v rfl).2.not_gt
    · exact knows_found hpc write denotes behind denotes' (not_lt.mp below) (range v rfl)
  | takeN v prev n =>
    obtain ⟨kind, rfl⟩ := inner moved
    obtain ⟨write, x, denotes, behind, denotes', at_, awaits⟩ := knows
    obtain ⟨hpc, beyond⟩ := awaits.denotes kind
    exact ⟨write, hpc, x, denotes, denotes', behind, at_, beyond⟩
  | locked v n prev =>
    obtain ⟨kind, rfl⟩ := inner moved
    obtain ⟨x, plan, first, copy, locking⟩ := knows
    obtain ⟨hpc, count, write, second, ret⟩ := locking.both kind
    have both : Both t (view init s t) (s.thread t) x prev := ⟨hpc, count, write, first, second, copy⟩
    cases n with
    | none => exact ⟨x, plan, both, ret⟩
    | some n => exact ⟨x, plan, both⟩
  | leaving op v result =>
    obtain ⟨-, rfl⟩ : (s.thread t).pc.kind = .idle ∧ Pc.done op v result = pc' := by
      unfold RluList.local_ at moved
      dsimp only at moved
      split_ifs at moved with kind
      exact ⟨kind, Option.some.inj moved⟩
    trivial
  | idle | done | readerLock | derefHead | loadNext | loadN | lockPrev | lockNext | malloc | assign
  | free | readerUnlock => cases moved

/-- The copy of the second node is one of the second node. -/
theorem Both.forceActual (known : Known cfg init s) {x : Nat} {p : Ptr}
    (both : Both t (view init s t) (s.thread t) x p) :
    s.forceActual (.copy ⟨t, (s.thread t).wsCurId, 1⟩) = .actual (next (view init s t) x) := by
  have ok := known.sound.wf.threads t
  have pos : (s.thread t).pc.wbPos = fun wb => (wb, 0) := by
    rw [both.here]
    rfl
  have count := both.count
  have live : (s.thread t).Live (s.thread t).wsTailCounter 1 := by
    refine (Thread.live_iff pos _ 1).mpr ⟨ok.wb_le_tail, .inr ⟨rfl, ?_, ?_⟩⟩
    · rw [← ok.curId]
      show 1 < (s.thread t).cur.numOfObjs + _
      omega
    · rw [both.here]
      exact id
  have mark : (s.wsObj ⟨t, (s.thread t).wsCurId, 1⟩).pObjCopy = .ptrIdObjCopy := by
    rw [ok.curId]
    exact (ok.live _ 1 live).2.1
  unfold State.forceActual
  dsimp only
  rw [if_pos mark]
  exact congrArg Ptr.actual both.second.1

/-- A new node, from memory that holds what is stored there. -/
theorem Knows.malloc (known : Known cfg init s) (words : 2 ≤ cfg.objWords) {v : Int} {prev n : Ptr}
    {a : Nat} (knows : Knows init list t (s.thread t) (view init s t) (.malloc v prev n))
    (hdr : s.hdr a = .null) (unpublished : ∀ p ∈ s.published, ∀ e ∈ p.objs, e.1 ≠ a)
    (val : s.obj a 0 = .val v) (link : s.obj a 1 = .ptr (s.forceActual n)) :
    Knows init list t (s.thread t) (view init s t) (.assign v prev (.actual a) none) := by
  obtain ⟨x, plan, both, copy⟩ := knows
  have value (w : Nat) (lt : w < cfg.objWords) : init a w = s.obj a w := by
    have young (c : CopyAddr) : ¬ OldLock s s.gWriterVersion a c := by
      rintro ⟨held, -⟩
      rw [hdr] at held
      cases held
    rw [known.snap.latest.inPlace a young w lt, valueAt_of_forall_ne]
    intro p mem e mem'
    exact unpublished p mem _ mem'
  rw [copy, both.forceActual known] at link
  exact ⟨x, plan, both, a, rfl, (value 0 (by omega)).trans val, (value 1 (by omega)).trans link⟩

theorem Knows.other {a : ReadLogUpdate.Act Word} {u : Nat} {e : Effect Word} (known : Known cfg init s)
    (right : RightSlot s a) (act : ActEffect cfg s a u e) (ne : t ≠ u)
    (knows : Knows init list t (s.thread t) (view init s t) pc) :
    Knows init list t ((s.apply u e.1 e.2).thread t) (view init (s.apply u e.1 e.2) t) pc := by
  rw [known.view_other right act ne, State.apply_thread, Function.update_of_ne ne]
  exact knows

end ReadLogUpdate.RluList
