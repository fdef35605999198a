import ReadLogUpdate.RluList.Tally

/-!
# The stores into new nodes
-/

namespace ReadLogUpdate.RluList

open Harris (ListT listValMin listValMax)
open Chain

variable {cfg : Config} {init init' : Nat → Nat → Word} {list : ListT} {s s' p p' : State} {t : Nat}

/-! ### Between calls -/

/-- Points of the library outside sections and outside `rlu_reader_lock`. -/
def outer : PcKind → Bool
  | .inSection | .mustAbort | .readerLock | .deref | .tryLock | .writerLock => false
  | .syncCheckpoint k | .sync k => k ≠ .readerLock
  | _ => true

def Pc.between : Pc → Bool
  | .idle | .done _ _ _ | .readerLock _ _ | .leaving _ _ _ => true
  | _ => false

theorem outer_of_nexts {pc : ReadLogUpdate.Pc} (here : outer pc.kind = true) (busy : pc ≠ .idle) :
    ∀ k ∈ pc.nexts, outer k = true := by
  cases pc with
  | idle => exact absurd rfl busy
  | inSection | mustAbort | readerLock | deref | tryLock | writerLock => cases here
  | init | readerUnlock | finished | failed | fault =>
    simp [ReadLogUpdate.Pc.nexts, Caller.nexts, outer]
  | syncCheckpoint c =>
    cases c <;> simp [ReadLogUpdate.Pc.kind, ReadLogUpdate.Pc.nexts, Caller.nexts, outer] at here ⊢
  | abort q => cases q <;> simp [ReadLogUpdate.Pc.nexts, outer]
  | release r q => cases r <;> simp [ReadLogUpdate.Pc.nexts, outer]
  | sync c q =>
    cases c <;> cases q <;>
      simp [ReadLogUpdate.Pc.kind, ReadLogUpdate.Pc.nexts, Caller.nexts, outer] at here ⊢

theorem outer_unregister {th : Thread Word} {pc : ReadLogUpdate.Pc} (here : outer pc.kind = true) :
    outer (rluUnregisterThread th pc).1.pc.kind = true := by
  unfold rluUnregisterThread
  split_ifs
  · exact here
  · rfl

/-- The calls that end a section, and the one between sections. -/
theorem outer_call {s : ReadLogUpdate.State Word} {th : Thread Word} {op : ReadLogUpdate.Op Word}
    {e : Effect Word} (called : call cfg s t th op th.pc = some e)
    (which : op = .abort ∨ op = .readerUnlock ∨ op = .finish) : outer e.1.pc.kind = true := by
  cases hpc : th.pc with
  | idle =>
    rw [hpc] at called
    rcases which with rfl | rfl | rfl
    · cases called
    · cases called
    · obtain rfl : th.go (.sync .finish .start) = e := Option.some.inj called
      rfl
  | inSection =>
    rw [hpc] at called
    rcases which with rfl | rfl | rfl
    · rw [← show rluUnregisterThread th (.abort .start) = e from Option.some.inj called]
      exact outer_unregister rfl
    · rw [← show rluUnregisterThread th .readerUnlock = e from Option.some.inj called]
      exact outer_unregister rfl
    · cases called
  | mustAbort =>
    rw [hpc] at called
    rcases which with rfl | rfl | rfl
    · rw [← show rluUnregisterThread th (.abort .start) = e from Option.some.inj called]
      exact outer_unregister rfl
    · cases called
    · cases called
  | _ =>
    rw [hpc] at called
    cases called

theorem request_between {rlu : ReadLogUpdate.State Word} {th : Thread Word} {pc pc' : Pc}
    {op : ReadLogUpdate.Op Word} (req : request list rlu th pc = some (op, pc'))
    (rest : pc'.between = true) : op = .abort ∨ op = .readerUnlock := by
  have same {o : ReadLogUpdate.Op Word} {q : Pc} (req : some (o, q) = some (op, pc')) :
      o = op ∧ q = pc' := Prod.mk.inj (Option.some.inj req)
  cases pc with
  | readerUnlock =>
    obtain ⟨rfl, -⟩ := same req
    exact .inr rfl
  | readerLock | derefHead | lockPrev | free =>
    obtain ⟨-, rfl⟩ := same req
    cases rest
  | loadNext | loadN =>
    obtain ⟨w, -, eq⟩ := Option.map_eq_some_iff.mp req
    obtain rfl := (Prod.mk.inj eq).2
    cases rest
  | lockNext w n next_ | locked w n prev =>
    unfold request at req
    dsimp only at req
    split at req
    · obtain ⟨rfl, -⟩ := same req
      exact .inl rfl
    · cases req <;> cases rest
  | assign w prev new next_ =>
    cases prev with
    | copy c =>
      obtain ⟨-, rfl⟩ := same req
      cases next_ <;> cases rest
    | null | actual => cases req
  | idle | done | prev | loadVal | takeN | malloc | leaving => cases req

theorem local_between {rlu : ReadLogUpdate.State Word} {th : Thread Word} {pc pc' : Pc}
    (moved : local_ rlu th pc = some pc') (rest : pc'.between = true) : pc.between = true := by
  cases pc with
  | leaving => rfl
  | prev | takeN =>
    unfold local_ at moved
    dsimp only at moved
    split_ifs at moved
    obtain rfl := Option.some.inj moved
    cases rest
  | loadVal op v prev =>
    unfold local_ at moved
    dsimp only at moved
    split_ifs at moved
    obtain ⟨w, -, rfl⟩ := Option.map_eq_some_iff.mp moved
    split_ifs at rest
    · cases rest
    · cases op with
      | contains => cases rest
      | add | remove =>
        unfold found at rest
        dsimp only at rest
        split_ifs at rest <;> cases rest
  | locked v n prev =>
    unfold local_ at moved
    dsimp only at moved
    split_ifs at moved
    obtain rfl := Option.some.inj moved
    cases n <;> cases rest
  | idle | done | readerLock | derefHead | loadNext | loadN | lockPrev | lockNext | malloc | assign
  | free | readerUnlock => cases moved

theorem Foreseen.outer (h : Foreseen cfg list init p) (between : (p.pc t).between = true) :
    RluList.outer (p.rlu.thread t).pc.kind = true := by
  refine System.Reachable.invariant_of
    (fun p : State => ∀ t, (p.pc t).between = true → RluList.outer (p.rlu.thread t).pc.kind = true)
    (fun _ h => Foreseen.known h) ?_ (fun s a s' known _ inv _ hs => ?_) h t between
  · intro s start t _
    rw [start.rlu]
    rfl
  · have stays {t : Nat} {e : Effect Word} (pc : Pc)
        (mine : pc.between = true → RluList.outer e.1.pc.kind = true) (u : Nat)
        (rest : ((after s t e pc).pc u).between = true) :
        RluList.outer ((after s t e pc).rlu.thread u).pc.kind = true := by
      by_cases eq : u = t
      · rw [eq, after_self.2] at rest
        rw [eq, after_self.1]
        exact mine rest
      · rw [(after_other eq).2] at rest
        rw [(after_other eq).1]
        exact inv u rest
    have moves {t : Nat} {pc : Pc} (rest : pc.between = true → (s.pc t).between = true) (u : Nat)
        (here : ((s.set t s.rlu pc).pc u).between = true) :
        RluList.outer (s.rlu.thread u).pc.kind = true := by
      rw [State.set_pc] at here
      by_cases eq : u = t
      · rw [eq, Function.update_self] at here
        rw [eq]
        exact inv t (rest here)
      · rw [Function.update_of_ne eq] at here
        exact inv u here
    cases a with
    | threadInit =>
      simp only [foresee, step] at hs
      obtain ⟨rlu, stepped, rfl⟩ := Option.map_eq_some_iff.mp hs
      have fresh := known.sound.wf.threadInit
      obtain rfl := Option.some.inj stepped
      rw [fresh]
      exact inv
    | lib t =>
      simp only [foresee, step] at hs
      obtain ⟨rlu, stepped, rfl⟩ := Option.map_eq_some_iff.mp hs
      simp only [ReadLogUpdate.step] at stepped
      split_ifs at stepped
      obtain ⟨e, called, rfl⟩ := Option.map_eq_some_iff.mp stepped
      have act : ActEffect cfg s.rlu (.lib t) t e := .inr ⟨rfl, called⟩
      have kept := stays (t := t) (e := e) (s.pc t) fun rest =>
        outer_of_nexts (inv t rest) (by
          intro idle
          rw [idle] at called
          cases called) _ (actEffect_flow act)
      rw [after, State.set, Function.update_eq_self] at kept
      exact kept
    | start t op v =>
      simp only [foresee, step] at hs
      split_ifs at hs with enabled
      obtain rfl := Option.some.inj hs
      refine moves fun _ => ?_
      have rest := enabled.1
      cases hpc : s.pc t with
      | idle | done => rfl
      | _ =>
        rw [hpc] at rest
        cases rest
    | client t =>
      simp only [foresee, step] at hs
      split at hs
      · rename_i op pc req
        obtain ⟨rlu, stepped, rfl⟩ := Option.map_eq_some_iff.mp hs
        simp only [ReadLogUpdate.step] at stepped
        split_ifs at stepped
        obtain ⟨e, called, rfl⟩ := Option.map_eq_some_iff.mp stepped
        refine stays pc fun rest => outer_call called ?_
        rcases request_between req rest with is | is
        · exact .inl is
        · exact .inr (.inl is)
      · obtain ⟨pc, moved, rfl⟩ := Option.map_eq_some_iff.mp hs
        exact moves (local_between moved)
    | malloc t a =>
      simp only [foresee] at hs
      split at hs
      · split_ifs at hs
        obtain rfl := Option.some.inj hs
        exact moves fun rest => by cases rest
      · cases hs
    | finish t =>
      simp only [foresee, step] at hs
      split_ifs at hs
      obtain ⟨rlu, stepped, rfl⟩ := Option.map_eq_some_iff.mp hs
      simp only [ReadLogUpdate.step] at stepped
      split_ifs at stepped
      obtain ⟨e, called, rfl⟩ := Option.map_eq_some_iff.mp stepped
      have kept := stays (t := t) (e := e) (s.pc t) fun _ =>
        outer_call called (.inr (.inr rfl))
      rw [after, State.set, Function.update_eq_self] at kept
      exact kept

/-! ### Memory that nobody reads -/

/-- The states of the library differ only in nodes that are not in use, of `n` words each. -/
structure Alike (n : Nat) (used : Nat → Bool) (r r' : ReadLogUpdate.State Word) : Prop where
  rest : r' = { r with obj := r'.obj, left := r'.left }
  obj : ∀ a, used a = true → ∀ w < n, r'.obj a w = r.obj a w

section Alike
variable {used : Nat → Bool} {r r' : ReadLogUpdate.State Word}

theorem Alike.thread {n : Nat} (alike : Alike n used r r') : r'.thread = r.thread := by
  rw [alike.rest]

theorem Alike.libStep (alike : Alike cfg.objWords used r r') {th : Thread Word}
    {pc : ReadLogUpdate.Pc} (reads : ∀ o w, pc = .tryLock (.copy o w) → used o = true) :
    libStep cfg r' t th pc = ReadLogUpdate.libStep cfg r t th pc := by
  have same {o w : Nat} (is : pc = .tryLock (.copy o w)) (lt : w < cfg.objWords) :
      r'.obj o w = r.obj o w := alike.obj o (reads o w is) w lt
  revert same
  rw [alike.rest]
  intro same
  cases pc with
  | tryLock q =>
    cases q with
    | copy o w =>
      unfold ReadLogUpdate.libStep
      dsimp only [tryLockStep]
      split_ifs with lt
      · rw [same rfl lt]
      · rfl
      · rfl
      · rfl
    | header p => cases p <;> rfl
    | _ => rfl
  | _ => rfl

theorem Alike.call {n : Nat} (alike : Alike n used r r') {th : Thread Word}
    {op : ReadLogUpdate.Op Word} {pc : ReadLogUpdate.Pc} :
    call cfg r' t th op pc = ReadLogUpdate.call cfg r t th op pc := by
  rw [alike.rest]
  cases pc <;> cases op <;> rfl

theorem Alike.apply {n : Nat} (alike : Alike n used r r') (e : Effect Word) :
    Alike n used (r.apply t e.1 e.2) (r'.apply t e.1 e.2) := by
  obtain ⟨rest, obj⟩ := alike
  obtain ⟨th, w⟩ := e
  refine ⟨?_, fun a use i lt => ?_⟩
  · rw [rest]
    cases w <;> rfl
  · cases w with
    | obj o w x =>
      show Function.update r'.obj o (Function.update (r'.obj o) w x) a i =
        Function.update r.obj o (Function.update (r.obj o) w x) a i
      by_cases eq : a = o
      · subst eq
        rw [Function.update_self, Function.update_self]
        by_cases at_ : i = w
        · rw [at_, Function.update_self, Function.update_self]
        · rw [Function.update_of_ne at_, Function.update_of_ne at_, obj a use i lt]
      · rw [Function.update_of_ne eq, Function.update_of_ne eq, obj a use i lt]
    | _ => exact obj a use i lt

theorem Alike.forceActual {n : Nat} (alike : Alike n used r r') (p : Ptr) :
    r'.forceActual p = r.forceActual p := by
  rw [alike.rest]
  rfl

theorem Alike.load {n : Nat} (alike : Alike n used r r') {p : Ptr} {w : Nat}
    (reads : ∀ a, p = .actual a → used a = true) (lt : w < n) : r'.load p w = r.load p w := by
  cases p with
  | null => rfl
  | copy c =>
    rw [alike.rest]
    rfl
  | actual a =>
    show some (r'.obj a w) = some (r.obj a w)
    rw [alike.obj a (reads a rfl) w lt]

end Alike

/-! ### What a call reads -/

/-- A pointer that a call reads through points at a node in use, if at a node itself. -/
theorem Denotes.used (known : Known cfg init p.rlu) (inv : Inv init list p) (here : InSection p.rlu t)
    {q : Ptr} {x : Nat} (denotes : Denotes (p.rlu.thread t) q x) (reached : Reached list (view init p.rlu t) x)
    (a : Nat) (is : q = .actual a) : p.used a = true := by
  rcases known.denotes_cases here denotes with eq | ⟨c, eq, -⟩
  · obtain rfl := Ptr.actual.inj (is.symm.trans eq)
    exact (known.view_isList inv.listed here).reached _ reached
  · rw [is] at eq
    cases eq

theorem Foreseen.copies (h : Foreseen cfg list init p) (words : 2 ≤ cfg.objWords) {o w : Nat}
    (copying : (p.rlu.thread t).pc = .tryLock (.copy o w)) : p.used o = true := by
  have inv := h.inv words
  have known := h.known
  have knows := inv.knows t
  obtain ⟨-, here⟩ := known.inSection (t := t) (by rw [copying]; exact .inr (.inr (.inl rfl)))
  have isList := known.view_isList inv.listed here
  have target {k x : Nat} (locking : Locking t (p.rlu.thread t) (view init p.rlu t) k x
      (p.rlu.thread t).pc) : o = x := by
    rw [copying] at locking
    exact locking.1
  have no (settled : Settled (p.rlu.thread t)) {q : Prop} : q := by
    unfold Settled at settled
    rw [copying] at settled
    simp at settled
  have awaits {x : Nat} (awaited : Awaits (p.rlu.thread t) x) {q : Prop} : q := by
    rcases awaited with ⟨d, pc, -⟩ | ⟨pc, -⟩
    · rw [copying] at pc
      cases pc
    · rw [copying] at pc
      cases pc
  cases hpc : p.pc t with
  | idle | done | readerLock | leaving =>
    have between := h.outer (t := t) (by rw [hpc]; rfl)
    rw [copying] at between
    cases between
  | derefHead op v =>
    rw [hpc] at knows
    have starting : Starting (p.rlu.thread t) := knows
    unfold Starting at starting
    rw [copying] at starting
    simp [ReadLogUpdate.Pc.kind] at starting
  | prev op v =>
    rw [hpc] at knows
    exact awaits knows.2
  | loadVal op v prev =>
    rw [hpc] at knows
    obtain ⟨-, x, -, -, awaited⟩ := knows
    exact awaits awaited
  | takeN v prev n =>
    rw [hpc] at knows
    obtain ⟨-, x, -, -, -, -, awaited⟩ := knows
    exact awaits awaited
  | loadNext op v prev =>
    rw [hpc] at knows
    exact no (.inl knows.2.1)
  | loadN v prev n =>
    rw [hpc] at knows
    exact no (.inl knows.2.1)
  | lockPrev v n prev next_ =>
    rw [hpc] at knows
    exact no (.inl knows.2.1)
  | lockNext v n next_ =>
    rw [hpc] at knows
    obtain ⟨x, -, plan, locking⟩ := knows
    rw [target locking]
    exact isList.reached _ plan.behind.1
  | locked v n prev =>
    rw [hpc] at knows
    obtain ⟨x, plan, -, -, locking⟩ := knows
    rw [target locking]
    exact isList.reached _ (isList.next_node inv.zero plan.behind.1 plan.behind.2.1).1
  | malloc v prev next_ =>
    rw [hpc] at knows
    obtain ⟨x, -, both, -⟩ := knows
    exact no (.inl both.here)
  | assign v prev new n =>
    rw [hpc] at knows
    cases n with
    | none =>
      obtain ⟨x, -, both, -⟩ := knows
      exact no (.inl both.here)
    | some n =>
      obtain ⟨x, -, both⟩ := knows
      exact no (.inl both.here)
  | free v n =>
    rw [hpc] at knows
    exact no (.inl knows.1)
  | readerUnlock op v result =>
    rw [hpc] at knows
    exact no knows.1

/-- What a call asks of the library does not depend on memory that is not in use. -/
theorem Foreseen.request (h : Foreseen cfg list init p) (words : 2 ≤ cfg.objWords)
    {r : ReadLogUpdate.State Word} (alike : Alike cfg.objWords p.used r p.rlu) :
    request list p.rlu (p.rlu.thread t) (p.pc t) = RluList.request list r (r.thread t) (p.pc t) := by
  have inv := h.inv words
  have known := h.known
  have knows := inv.knows t
  rw [← alike.thread]
  cases hpc : p.pc t with
  | loadNext op v prev =>
    rw [hpc] at knows
    obtain ⟨-, pc, x, denotes, behind⟩ := knows
    obtain ⟨-, here⟩ := known.inSection (t := t) (by rw [pc]; exact .inl rfl)
    unfold RluList.request
    dsimp only
    rw [alike.load (denotes.used known inv here behind.1) (by omega)]
  | loadN v prev n =>
    rw [hpc] at knows
    obtain ⟨-, pc, x, -, behind, denotes, -⟩ := knows
    obtain ⟨-, here⟩ := known.inSection (t := t) (by rw [pc]; exact .inl rfl)
    have there := (known.view_isList inv.listed here).next_node inv.zero behind.1 behind.2.1
    unfold RluList.request
    dsimp only
    rw [alike.load (denotes.used known inv here there.1) (by omega)]
  | assign v prev new next_ =>
    cases prev with
    | copy c =>
      unfold RluList.request
      dsimp only
      rw [alike.forceActual]
    | null | actual => rfl
  | _ => rfl

theorem Foreseen.local_ (h : Foreseen cfg list init p) (words : 2 ≤ cfg.objWords)
    {r : ReadLogUpdate.State Word} (alike : Alike cfg.objWords p.used r p.rlu) :
    local_ p.rlu (p.rlu.thread t) (p.pc t) = RluList.local_ r (r.thread t) (p.pc t) := by
  have inv := h.inv words
  have known := h.known
  have knows := inv.knows t
  rw [← alike.thread]
  cases hpc : p.pc t with
  | loadVal op v prev =>
    rw [hpc] at knows
    obtain ⟨-, x, -, behind, awaited⟩ := knows
    unfold RluList.local_
    dsimp only
    split_ifs with kind
    · obtain ⟨pc, denotes⟩ := awaited.denotes kind
      obtain ⟨-, here⟩ := known.inSection (t := t) (by rw [pc]; exact .inl rfl)
      have there := (known.view_isList inv.listed here).next_node inv.zero behind.1 behind.2.1
      rw [alike.load (denotes.used known inv here there.1) (by omega)]
    · rfl
  | _ => rfl

/-! ### Every run is foreseen -/

structure Shadows (n : Nat) (s p : State) : Prop where
  pc : p.pc = s.pc
  used : p.used = s.used
  rlu : Alike n s.used s.rlu p.rlu

theorem Shadows.trans {n : Nat} {q : State} (first : Shadows n s p) (second : Shadows n p q) :
    Shadows n s q := by
  refine ⟨second.pc.trans first.pc, second.used.trans first.used, ?_, fun a use w lt => ?_⟩
  · rw [second.rlu.rest, first.rlu.rest]
  · exact (second.rlu.obj a (by rw [first.used]; exact use) w lt).trans (first.rlu.obj a use w lt)

def Act.plain : Act → Bool
  | .malloc _ _ => false
  | _ => true

theorem Shadows.act (shadows : Shadows cfg.objWords s p) (h : Foreseen cfg list init p)
    (words : 2 ≤ cfg.objWords) (a : Act) : a.rlu list p = a.rlu list s := by
  have alike : Alike cfg.objWords p.used s.rlu p.rlu := shadows.used ▸ shadows.rlu
  cases a with
  | client t =>
    unfold Act.rlu
    dsimp only
    rw [h.request words alike, shadows.pc]
  | _ => rfl

theorem Shadows.allowed (shadows : Shadows cfg.objWords s p) (h : Foreseen cfg list init p)
    (words : 2 ≤ cfg.objWords) {a : Act} (allowed : Allowed list s a) : Allowed list p a := by
  intro x mem
  rw [shadows.act h words] at mem
  have here := allowed x mem
  rw [shadows.rlu.rest]
  cases x <;> exact here

theorem Shadows.rluStep (shadows : Shadows cfg.objWords s p) (h : Foreseen cfg list init p)
    (words : 2 ≤ cfg.objWords) {x : ReadLogUpdate.Act Word} {r : ReadLogUpdate.State Word}
    (hs : ReadLogUpdate.step cfg s.rlu x = some r) :
    ∃ r', ReadLogUpdate.step cfg p.rlu x = some r' ∧ Alike cfg.objWords s.used r r' := by
  have thread := shadows.rlu.thread
  have threads : p.rlu.gCurThreads = s.rlu.gCurThreads := by rw [shadows.rlu.rest]
  cases x with
  | threadInit =>
    obtain rfl := Option.some.inj hs
    refine ⟨_, rfl, ?_, shadows.rlu.obj⟩
    rw [shadows.rlu.rest]
  | call t op =>
    simp only [ReadLogUpdate.step] at hs ⊢
    split_ifs at hs with lt
    obtain ⟨e, called, rfl⟩ := Option.map_eq_some_iff.mp hs
    rw [if_pos (by rw [threads]; exact lt), shadows.rlu.call, thread, called]
    exact ⟨_, rfl, shadows.rlu.apply e⟩
  | lib t =>
    simp only [ReadLogUpdate.step] at hs ⊢
    split_ifs at hs with lt
    obtain ⟨e, called, rfl⟩ := Option.map_eq_some_iff.mp hs
    rw [if_pos (by rw [threads]; exact lt), shadows.rlu.libStep, thread, called]
    · exact ⟨_, rfl, shadows.rlu.apply e⟩
    · intro o w copying
      rw [← shadows.used]
      exact h.copies words copying

theorem Shadows.step (shadows : Shadows cfg.objWords s p) (h : Foreseen cfg list init p)
    (words : 2 ≤ cfg.objWords) {a : Act} (plain : a.plain = true)
    (hs : step cfg list s a = some s') :
    (∃ p', foresee cfg list p a = some p' ∧ Shadows cfg.objWords s' p') ∧ s'.used = s.used ∧
      s'.born = s.born := by
  have alike : Alike cfg.objWords p.used s.rlu p.rlu := shadows.used ▸ shadows.rlu
  cases a with
  | malloc t a => cases plain
  | threadInit | lib t =>
    simp only [foresee, RluList.step] at hs ⊢
    obtain ⟨rlu, stepped, rfl⟩ := Option.map_eq_some_iff.mp hs
    obtain ⟨rlu', stepped', alike'⟩ := shadows.rluStep h words stepped
    rw [stepped']
    exact ⟨⟨_, rfl, shadows.pc, shadows.used, alike'⟩, rfl, rfl⟩
  | finish t =>
    simp only [foresee, RluList.step] at hs ⊢
    split_ifs at hs with rest
    obtain ⟨rlu, stepped, rfl⟩ := Option.map_eq_some_iff.mp hs
    obtain ⟨rlu', stepped', alike'⟩ := shadows.rluStep h words stepped
    rw [if_pos (by rw [shadows.pc]; exact rest), stepped']
    exact ⟨⟨_, rfl, shadows.pc, shadows.used, alike'⟩, rfl, rfl⟩
  | start t op v =>
    simp only [foresee, RluList.step] at hs ⊢
    split_ifs at hs with enabled
    obtain rfl := Option.some.inj hs
    rw [if_pos (by rw [shadows.pc]; exact enabled)]
    refine ⟨⟨_, rfl, ?_, shadows.used, shadows.rlu⟩, rfl, rfl⟩
    rw [State.set_pc, State.set_pc, shadows.pc]
  | client t =>
    simp only [foresee, RluList.step] at hs ⊢
    rw [h.request words alike, shadows.pc]
    split at hs
    · obtain ⟨rlu, stepped, rfl⟩ := Option.map_eq_some_iff.mp hs
      obtain ⟨rlu', stepped', alike'⟩ := shadows.rluStep h words stepped
      rw [stepped']
      refine ⟨⟨_, rfl, ?_, shadows.used, alike'⟩, rfl, rfl⟩
      rw [State.set_pc, State.set_pc, shadows.pc]
    · obtain ⟨pc, moved, rfl⟩ := Option.map_eq_some_iff.mp hs
      have moved' := h.local_ (t := t) words alike
      rw [shadows.pc] at moved'
      rw [moved', moved]
      refine ⟨⟨_, rfl, ?_, shadows.used, shadows.rlu⟩, rfl, rfl⟩
      rw [State.set_pc, State.set_pc, shadows.pc]

/-- What is not in use is as it was at the start. -/
theorem Foreseen.unused (h : Foreseen cfg list init p) (words : 2 ≤ cfg.objWords) {a w : Nat}
    (unused : p.used a = false) (hdr : p.rlu.hdr a = .null) (lt : w < cfg.objWords) :
    p.rlu.obj a w = init a w := by
  have young (c : CopyAddr) : ¬ OldLock p.rlu p.rlu.gWriterVersion a c := by
    rintro ⟨held, -⟩
    rw [hdr] at held
    cases held
  have unlinked := (h.inv words).listed.unlinked unused
  rw [h.known.snap.latest.inPlace a young w lt, valueAt_of_forall_ne unlinked.objs]

theorem settled_congr (same : p.pc = s.pc) (a : Act) : settled a p = settled a s := by
  cases a with
  | client t =>
    unfold settled
    dsimp only
    rw [same]
  | _ => rfl

theorem foresee_plain {a : Act} (plain : a.plain = true) :
    foresee cfg list p a = step cfg list p a := by
  cases a with
  | malloc => cases plain
  | _ => rfl

/-- A `malloc` of a foreseeing run, where the memory holds what it has to. -/
theorem Shadows.malloc (shadows : Shadows cfg.objWords s p) (h : Foreseen cfg list init p)
    (words : 2 ≤ cfg.objWords) {v : Int} {prev next_ : Ptr} {a : Nat}
    (hpc : s.pc t = .malloc v prev next_) (nonzero : a ≠ 0) (unused : s.used a = false)
    (hdr : s.rlu.hdr a = .null) (val : init a 0 = .val v)
    (link : init a 1 = .ptr (s.rlu.forceActual next_)) :
    ∃ p', foresee cfg list p (.malloc t a) = some p' ∧
      p'.pc = Function.update s.pc t (.assign v prev (.actual a) none) ∧
      p'.used = Function.update s.used a true ∧ p'.rlu = p.rlu ∧
      ∀ w < cfg.objWords, p.rlu.obj a w = init a w := by
  have unused' : p.used a = false := by rw [shadows.used, unused]
  have hdr' : p.rlu.hdr a = .null := by
    rw [shadows.rlu.rest]
    exact hdr
  have contents (w : Nat) (lt : w < cfg.objWords) : p.rlu.obj a w = init a w :=
    h.unused words unused' hdr' lt
  have first : p.rlu.obj a 0 = .val v := (contents 0 (by omega)).trans val
  have second : p.rlu.obj a 1 = .ptr (p.rlu.forceActual next_) := by
    rw [contents 1 (by omega), link, shadows.rlu.forceActual]
  refine ⟨{ p.set t p.rlu (.assign v prev (.actual a) none) with
    used := Function.update p.used a true }, ?_, ?_, ?_, rfl, contents⟩
  · simp only [foresee]
    rw [shadows.pc, hpc]
    dsimp only
    rw [if_pos ⟨nonzero, unused', hdr', first, second⟩]
  · show Function.update p.pc t _ = _
    rw [shadows.pc]
  · show Function.update p.used a true = _
    rw [shadows.used]

theorem Alike.more {n a : Nat} {used : Nat → Bool} {r r' : ReadLogUpdate.State Word}
    (rest : r' = { r with obj := r'.obj, left := r'.left })
    (obj : ∀ b, b ≠ a → used b = true → ∀ w < n, r'.obj b w = r.obj b w)
    (new : ∀ w < n, r'.obj a w = r.obj a w) : Alike n (Function.update used a true) r r' := by
  refine ⟨rest, fun b use w lt => ?_⟩
  by_cases eq : b = a
  · rw [eq]
    exact new w lt
  · rw [Function.update_of_ne eq] at use
    exact obj b eq use w lt

/-- A foreseeing run goes the same way from memory with other contents where no node is in use. -/
theorem foreseen_again {p₀ : State} (start : Start list init p₀) (words : 2 ≤ cfg.objWords)
    {es : List Harris.Return}
    (run : System.Records (foresee cfg list) (Allowed list) settled p₀ es p)
    (agree : ∀ a, p.used a = true → ∀ w < cfg.objWords, init' a w = init a w) :
    ∃ q₀ q, Start list init' q₀ ∧
      System.Records (foresee cfg list) (Allowed list) settled q₀ es q ∧
      Shadows cfg.objWords p q := by
  induction run with
  | start =>
    have sentinel {a : Nat} (is : a = list.pHead ∨ a = list.pMax) : p₀.used a = true := by
      rw [start.used, Bool.or_eq_true, beq_iff_eq, beq_iff_eq]
      exact is
    have head := agree _ (sentinel (.inl rfl))
    have last := agree _ (sentinel (.inr rfl))
    refine ⟨⟨State.init init', p₀.pc, p₀.used, init'⟩, _,
      ⟨rfl, ?_, ?_, start.pc, start.used, rfl⟩, .start, rfl, rfl, ?_, fun a use w lt => ?_⟩
    · rw [head 0 (by omega), head 1 (by omega)]
      exact start.head
    · rw [last 0 (by omega), last 1 (by omega)]
      exact start.last
    · rw [start.rlu]
      rfl
    · rw [start.rlu]
      exact agree a use w lt
  | @step es p p₁ a run allowed hs ih =>
    have h : Foreseen cfg list init p := run.reachable (.start start)
    have mono (b : Nat) (use : p.used b = true) : p₁.used b = true := by
      by_cases plain : a.plain = true
      · rw [foresee_plain plain] at hs
        have shadows : Shadows cfg.objWords p p := ⟨rfl, rfl, rfl, fun _ _ _ _ => rfl⟩
        rw [(shadows.step h words plain hs).2.1]
        exact use
      · cases a with
        | malloc t c =>
          simp only [foresee] at hs
          split at hs
          · split_ifs at hs
            obtain rfl := Option.some.inj hs
            show Function.update p.used c true b = true
            by_cases eq : b = c
            · rw [eq, Function.update_self]
            · rw [Function.update_of_ne eq]
              exact use
          · cases hs
        | _ => exact absurd rfl plain
    obtain ⟨q₀, q, start', run', shadows⟩ := ih fun b use => agree b (mono b use)
    have h' : Foreseen cfg list init' q := run'.reachable (.start start')
    have allowed' := shadows.allowed h' words allowed
    by_cases plain : a.plain = true
    · rw [foresee_plain plain] at hs
      obtain ⟨⟨q₁, hs', shadows'⟩, -⟩ := shadows.step h' words plain hs
      rw [← settled_congr shadows'.pc]
      exact ⟨q₀, q₁, start', run'.step allowed' hs', shadows'⟩
    · cases a with
      | malloc t c =>
        simp only [foresee] at hs
        split at hs
        · rename_i v prev next_ hpc
          split_ifs at hs with enabled
          obtain ⟨nonzero, unused, hdr, val, link⟩ := enabled
          obtain rfl := Option.some.inj hs
          have use : Function.update p.used c true c = true := Function.update_self _ _ _
          have old (w : Nat) (lt : w < cfg.objWords) : p.rlu.obj c w = init c w :=
            h.unused words unused hdr lt
          have same (w : Nat) (lt : w < cfg.objWords) : init' c w = init c w := agree c use w lt
          obtain ⟨q₁, hs', pc, used, rlu, new⟩ := shadows.malloc h' words hpc nonzero unused hdr
            (by rw [same 0 (by omega), ← old 0 (by omega), val])
            (by rw [same 1 (by omega), ← old 1 (by omega), link])
          have event : settled (.malloc t c) { p.set t p.rlu (.assign v prev (.actual c) none) with
              used := Function.update p.used c true } = settled (.malloc t c) q₁ := rfl
          rw [event]
          refine ⟨q₀, q₁, start', run'.step allowed' hs', pc, used, ?_⟩
          rw [rlu]
          refine .more shadows.rlu.rest (fun b _ => shadows.rlu.obj b) fun w lt => ?_
          exact (new w lt).trans ((same w lt).trans (old w lt).symm)
        · cases hs
      | _ => exact absurd rfl plain

/-- Every run of the program is like one that foresees what it stores. -/
theorem foreseen {s₀ : State} (start : Start list init s₀) (words : 2 ≤ cfg.objWords)
    {es : List Harris.Return} (run : System.Records (step cfg list) (Allowed list) settled s₀ es s) :
    ∃ init' q₀ q, Start list init' q₀ ∧
      System.Records (foresee cfg list) (Allowed list) settled q₀ es q ∧
      Shadows cfg.objWords s q ∧
      ∀ a, s.used a = true → ∀ w < cfg.objWords, init' a w = s.born a w := by
  induction run with
  | start =>
    exact ⟨init, s₀, s₀, start, .start, ⟨rfl, rfl, rfl, fun _ _ _ _ => rfl⟩, fun a _ w _ => by
      rw [start.born]⟩
  | @step es s s₁ a run allowed hs ih =>
    obtain ⟨init', q₀, q, start', run', shadows, born⟩ := ih
    have h : Foreseen cfg list init' q := run'.reachable (.start start')
    by_cases plain : a.plain = true
    · obtain ⟨⟨q₁, hs', shadows'⟩, used, same⟩ := shadows.step h words plain hs
      rw [← settled_congr shadows'.pc]
      refine ⟨init', q₀, q₁, start', run'.step (shadows.allowed h words allowed) hs', shadows',
        fun b use => ?_⟩
      rw [same]
      rw [used] at use
      exact born b use
    · cases a with
      | malloc t c =>
        simp only [step] at hs
        split at hs
        · rename_i v prev next_ hpc
          split_ifs at hs with enabled
          obtain ⟨nonzero, unused, hdr⟩ := enabled
          obtain rfl := Option.some.inj hs
          -- the same run, from memory that holds the new node
          have unused' : q.used c = false := by rw [shadows.used, unused]
          have agree : ∀ b, q.used b = true → ∀ w < cfg.objWords,
              Function.update init' c (node v (s.rlu.forceActual next_)) b w = init' b w := by
            intro b use w _
            rw [Function.update_of_ne]
            rintro rfl
            rw [unused'] at use
            cases use
          obtain ⟨r₀, r, start'', run'', shadows'⟩ := foreseen_again start' words run' agree
          have both := shadows.trans shadows'
          have h' := run''.reachable (.start start'')
          obtain ⟨q₁, hs', pc, used, rlu, new⟩ := both.malloc h' words hpc nonzero unused hdr
            (by rw [Function.update_self]; rfl) (by rw [Function.update_self]; rfl)
          refine ⟨_, r₀, q₁, start'', run''.step (both.allowed h' words allowed) hs',
            ⟨pc, used, ?_⟩, fun b use w lt => ?_⟩
          · rw [rlu]
            refine .more both.rlu.rest (fun b ne use w lt => ?_) fun w lt => ?_
            · rw [both.rlu.obj b use w lt]
              show _ = Function.update s.rlu.obj c _ b w
              rw [Function.update_of_ne ne]
            · rw [new w lt, Function.update_self]
              show _ = Function.update s.rlu.obj c _ c w
              rw [Function.update_self]
          · show _ = Function.update s.born c _ b w
            by_cases eq : b = c
            · rw [eq, Function.update_self, Function.update_self]
            · rw [Function.update_of_ne eq, Function.update_of_ne eq]
              exact born b ((Function.update_of_ne eq _ _).symm.trans use) w lt
        · cases hs
      | _ => exact absurd rfl plain

/-! ### What carries over -/

theorem overlay_agree {objs : List (Nat × (Nat → Word))} {c c' : Nat → Nat → Word} {o w : Nat}
    (same : c o w = c' o w) : overlay objs c o w = overlay objs c' o w := by
  unfold overlay
  cases objs.find? fun e => e.1 = o with
  | none => exact same
  | some e => rfl

theorem valueAt_agree {l o w : Nat} {ps : List (Publication Word)} (same : init o w = init' o w) :
    valueAt init l ps o w = valueAt init' l ps o w := by
  induction ps with
  | nil => exact same
  | cons p ps ih =>
    by_cases le : p.version ≤ l
    · rw [valueAt_cons_of_le le, valueAt_cons_of_le le]
      exact overlay_agree ih
    · rw [valueAt_cons_of_lt (Nat.lt_of_not_le le), valueAt_cons_of_lt (Nat.lt_of_not_le le)]
      exact ih

section Carry
variable {used : Nat → Bool} {c c' : Nat → Nat → Word}

/-- A list has the same keys where the nodes in use hold the same. -/
theorem IsList.carry_lists (isList : IsList init' list used c')
    (born : ∀ o, used o = true → init o 0 = init' o 0)
    (same : ∀ o, used o = true → ∀ w < 2, c o w = c' o w) {S : Finset Int}
    (lists : Lists (next c') (key init') list.pHead list.pMax S) :
    Lists (next c) (key init) list.pHead list.pMax S := by
  refine lists.congr fun o reached => ?_
  have use := isList.reached o reached
  exact ⟨congrArg Word.addr (same o use 1 (by omega)), congrArg Word.toVal (born o use)⟩

theorem IsList.carry (isList : IsList init' list used c')
    (born : ∀ o, used o = true → init o 0 = init' o 0)
    (same : ∀ o, used o = true → ∀ w < 2, c o w = c' o w) : IsList init list used c := by
  obtain ⟨S, lists⟩ := isList.lists
  have link (o : Nat) (reached : Reached list c' o) : next c o = next c' o :=
    congrArg Word.addr (same o (isList.reached o reached) 1 (by omega))
  refine ⟨⟨fun o use => ?_, fun o use => ?_⟩, ⟨S, isList.carry_lists born same lists⟩,
    fun o reached => ?_, ?_⟩
  · rw [same o use 0 (by omega), isList.typed.val o use, born o use]
  · rw [same o use 1 (by omega)]
    exact isList.typed.plain o use
  · exact isList.reached o (lists.reached_of_congr link reached)
  · rw [link _ lists.ends]
    exact isList.last

end Carry

structure Mirrors (cfg : Config) (list : ListT) (init' : Nat → Nat → Word) (s q : State) : Prop where
  foreseen : Foreseen cfg list init' q
  shadows : Shadows cfg.objWords s q
  born : ∀ a, s.used a = true → ∀ w < cfg.objWords, init' a w = s.born a w

section Mirrors
variable {q : State}

theorem Mirrors.isList_at (m : Mirrors cfg list init' s q) (words : 2 ≤ cfg.objWords) (l : Nat) :
    IsList s.born list s.used (at_ s.born s.rlu l) := by
  have isList := (m.foreseen.inv words).listed.isList l
  rw [m.shadows.used] at isList
  refine isList.carry (fun o use => (m.born o use 0 (by omega)).symm) fun o use w lt => ?_
  have published : q.rlu.published = s.rlu.published := by rw [m.shadows.rlu.rest]
  unfold at_
  rw [published]
  exact valueAt_agree (m.born o use w (by omega)).symm

theorem Mirrors.viewed (m : Mirrors cfg list init' s q) (words : 2 ≤ cfg.objWords) {o w : Nat}
    (use : s.used o = true) (lt : w < 2) : view s.born s.rlu t o w = view init' q.rlu t o w := by
  have published : q.rlu.published = s.rlu.published := by rw [m.shadows.rlu.rest]
  unfold view at_
  rw [published, m.shadows.rlu.thread]
  exact overlay_agree (valueAt_agree (m.born o use w (by omega)).symm)

theorem Mirrors.inSection (m : Mirrors cfg list init' s q)
    (running : (s.rlu.thread t).pc.kind = .inSection) : InSection q.rlu t := by
  have kind : (q.rlu.thread t).pc.kind = .inSection := by
    rw [m.shadows.rlu.thread]
    exact running
  exact (m.foreseen.known.inSection (.inl kind)).2

theorem Mirrors.isList_seen (m : Mirrors cfg list init' s q) (words : 2 ≤ cfg.objWords)
    (running : (s.rlu.thread t).pc.kind = .inSection) :
    IsList init' list s.used (view init' q.rlu t) := by
  rw [← m.shadows.used]
  exact m.foreseen.known.view_isList (m.foreseen.inv words).listed (m.inSection running)

theorem Mirrors.isList_view (m : Mirrors cfg list init' s q) (words : 2 ≤ cfg.objWords)
    (running : (s.rlu.thread t).pc.kind = .inSection) :
    IsList s.born list s.used (view s.born s.rlu t) :=
  (m.isList_seen words running).carry (fun o use => (m.born o use 0 (by omega)).symm)
    fun _ use _ lt => m.viewed words use lt

theorem Mirrors.lists_view (m : Mirrors cfg list init' s q) (words : 2 ≤ cfg.objWords)
    (running : (s.rlu.thread t).pc.kind = .inSection) {S : Finset Int}
    (lists : Lists (next (view init' q.rlu t)) (key init') list.pHead list.pMax S) :
    Lists (next (view s.born s.rlu t)) (key s.born) list.pHead list.pMax S :=
  (m.isList_seen words running).carry_lists (fun o use => (m.born o use 0 (by omega)).symm)
    (fun _ use _ lt => m.viewed words use lt) lists

theorem Mirrors.newest (m : Mirrors cfg list init' s q) (words : 2 ≤ cfg.objWords) {o w : Nat}
    (use : s.used o = true) (lt : w < 2) : s.rlu.newest s.born o w = q.rlu.newest init' o w := by
  rw [m.shadows.rlu.rest]
  exact overlay_agree (valueAt_agree (m.born o use w (by omega)).symm)

theorem Mirrors.isList_newest (m : Mirrors cfg list init' s q) (words : 2 ≤ cfg.objWords) :
    IsList init' list s.used (q.rlu.newest init') := by
  rw [← m.shadows.used]
  exact (m.foreseen.inv words).listed.newest_isList m.foreseen.known.sound

theorem Mirrors.holding (m : Mirrors cfg list init' s q) (words : 2 ≤ cfg.objWords) {S : Finset Int}
    (holding : Holding init' list q S) : Holding s.born list s S :=
  (m.isList_newest words).carry_lists (fun o use => (m.born o use 0 (by omega)).symm)
    (fun _ use _ lt => m.newest words use lt) holding

end Mirrors

theorem Reaches.mirrored (h : Reaches cfg list init s) (words : 2 ≤ cfg.objWords) :
    ∃ init' q, Mirrors cfg list init' s q := by
  obtain ⟨s₀, es, start, run⟩ := h.records settled
  obtain ⟨init', q₀, q, start', run', shadows, born⟩ := foreseen start words run
  exact ⟨init', q, run'.reachable (.start start'), shadows, born⟩

end ReadLogUpdate.RluList
