import ReadLogUpdate.RluList.Commits

/-!
# Every run keeps the lists sorted

The invariant of runs with any number of threads: the lists of all versions, what each thread knows
at its point of its call, and the new nodes, each of which one add alone is about to link.
-/

namespace ReadLogUpdate.RluList

open Harris (ListT listValMin listValMax)
open Chain

def newNode (th : Thread Word) : Pc → Option Nat
  | .assign _ _ (.actual a) none => some a
  | .readerUnlock .add _ true => some (splice th th.wsTailCounter).new
  | _ => none

structure Inv (init : Nat → Nat → Word) (list : ListT) (s : State) : Prop where
  zero : s.used 0 = false
  low : key init list.pHead = listValMin
  high : key init list.pMax = listValMax
  listed : Listed init list s.used s.rlu
  range : ∀ t v, (s.pc t).val = some v → listValMin < v ∧ v < listValMax
  knows : ∀ t, Knows init list t (s.rlu.thread t) (view init s.rlu t) (s.pc t)
  new : ∀ t a, newNode (s.rlu.thread t) (s.pc t) = some a →
    s.used a = true ∧ Unlinked init list s.rlu a
  own : ∀ t u a, newNode (s.rlu.thread t) (s.pc t) = some a →
    newNode (s.rlu.thread u) (s.pc u) = some a → t = u

variable {cfg : Config} {init : Nat → Nat → Word} {list : ListT} {s s' : State} {t : Nat}

theorem Start.reached (start : Start list init s) (o : Nat) :
    Reached list init o ↔ o = list.pHead ∨ o = list.pMax := by
  have next_head : next init list.pHead = list.pMax := by
    rw [next, start.head.2]
    rfl
  constructor
  · intro path
    induction path with
    | refl => exact .inl rfl
    | @tail b c _ edge ih =>
      obtain ⟨outer, rfl⟩ := edge
      rcases ih with rfl | rfl
      · exact .inr next_head
      · exact absurd rfl outer
  · rintro (rfl | rfl)
    · exact .refl _
    · exact .tail .refl ⟨list.ne, next_head⟩

theorem Start.keys (start : Start list init s) :
    key init list.pHead = listValMin ∧ key init list.pMax = listValMax := by
  rw [key, key, start.head.1, start.last.1]
  exact ⟨rfl, rfl⟩

theorem Start.lists (start : Start list init s) :
    Lists (next init) (key init) list.pHead list.pMax ∅ := by
  obtain ⟨low, high⟩ := start.keys
  have sorted : key init list.pHead < key init list.pMax := by
    rw [low, high]
    decide
  refine ⟨⟨fun o path outer => path.tail ⟨outer, rfl⟩, fun o path outer => ?_, fun o path => ?_⟩,
    (start.reached _).mpr (.inr rfl), list.ne, fun v => ?_⟩
  · rcases (start.reached o).mp path with rfl | rfl
    · have next_head : next init list.pHead = list.pMax := by
        rw [next, start.head.2]
        rfl
      rw [next_head]
      exact sorted
    · exact absurd rfl outer
  · rcases (start.reached o).mp path with rfl | rfl
    · exact sorted.le
    · exact le_rfl
  · refine ⟨fun mem => absurd mem (Finset.notMem_empty v), ?_⟩
    rintro ⟨o, path, inner, outer, -⟩
    rcases (start.reached o).mp path with rfl | rfl
    · exact absurd rfl inner
    · exact absurd rfl outer

theorem start_inv (start : Start list init s) : Inv init list s := by
  obtain ⟨low, high⟩ := start.keys
  have lists := start.lists
  have reached := start.reached
  obtain ⟨rlu, ⟨head, link⟩, ⟨last, null⟩, pc, used, -⟩ := start
  have nothing (t ctr : Nat) : ¬ (s.rlu.thread t).Unpublished ctr := by
    rw [rlu]
    rintro ⟨-, -, lt | ⟨-, staged⟩⟩
    · exact absurd lt (Nat.not_lt_zero _)
    · cases staged
  have noSection (t l : Nat) : (s.rlu.thread t).sectionVersion ≠ some l := by
    rw [rlu]
    intro version
    cases version
  have empty : s.rlu.published = [] := by
    rw [rlu]
    rfl
  have contents (l : Nat) : at_ init s.rlu l = init := by
    rw [at_, empty]
    rfl
  have use {o : Nat} : s.used o = true ↔ o = list.pHead ∨ o = list.pMax := by
    rw [used, Bool.or_eq_true, beq_iff_eq, beq_iff_eq]
  refine ⟨?_, low, high, ⟨fun l => ?_, fun t ctr on => absurd on (nothing t ctr),
    fun t ctr on => absurd on (nothing t ctr), fun t u a b on => absurd on (nothing t a),
    fun r l version => absurd version (noSection r l), ?_⟩, fun t v is => ?_, fun t => ?_,
    fun t a is => ?_, fun t u a is => ?_⟩
  · rw [Bool.eq_false_iff]
    intro zero
    rcases use.mp zero with eq | eq
    · exact list.head_ne eq.symm
    · exact list.max_ne eq.symm
  · rw [contents]
    refine ⟨⟨fun o _ => rfl, fun o is => ?_⟩, ⟨∅, lists⟩, fun o path => use.mpr ((reached o).mp path),
      congrArg Word.addr null⟩
    rcases use.mp is with rfl | rfl
    · exact ⟨list.pMax, link.trans (congrArg Word.ptr (if_neg list.max_ne).symm)⟩
    · exact ⟨0, null⟩
  · rw [empty]
    intro p mem
    cases mem
  · rw [pc] at is
    cases is
  · rw [pc]
    trivial
  · rw [pc] at is
    cases is
  · rw [pc] at is
    cases is

/-! ### Steps of the library -/

section Library
variable {a : ReadLogUpdate.Act Word} {e : Effect Word} {pc : Pc}

/-- The state after a step of the library by thread `t`, which then is at `pc`. -/
abbrev after (s : State) (t : Nat) (e : Effect Word) (pc : Pc) : State :=
  s.set t (s.rlu.apply t e.1 e.2) pc

theorem after_self : ((after s t e pc).rlu.thread t = e.1) ∧ (after s t e pc).pc t = pc :=
  ⟨by rw [State.set_rlu, State.apply_thread, Function.update_self], Function.update_self _ _ _⟩

theorem after_other {u : Nat} (ne : u ≠ t) :
    (after s t e pc).rlu.thread u = s.rlu.thread u ∧ (after s t e pc).pc u = s.pc u :=
  ⟨by rw [State.set_rlu, State.apply_thread, Function.update_of_ne ne], Function.update_of_ne ne _ _⟩

/-- A step of the library that keeps the lists, links no other new node and gives its thread what
it has to know. -/
theorem Inv.library (inv : Inv init list s) (known : Known cfg init s.rlu)
    (right : RightSlot s.rlu a) (act : ActEffect cfg s.rlu a t e)
    (listed : Listed init list s.used (s.rlu.apply t e.1 e.2))
    (range : ∀ v, pc.val = some v → (s.pc t).val = some v)
    (knows : Knows init list t e.1 (view init (s.rlu.apply t e.1 e.2) t) pc)
    (keeps : ∀ x, newNode e.1 pc = some x → newNode (s.rlu.thread t) (s.pc t) = some x)
    (unlinked : ∀ u x, newNode (s.rlu.thread u) (s.pc u) = some x → (u = t → newNode e.1 pc = some x) →
      Unlinked init list (s.rlu.apply t e.1 e.2) x) :
    Inv init list (after s t e pc) := by
  have before {u x : Nat}
      (is : newNode ((after s t e pc).rlu.thread u) ((after s t e pc).pc u) = some x) :
      newNode (s.rlu.thread u) (s.pc u) = some x ∧ (u = t → newNode e.1 pc = some x) := by
    by_cases eq : u = t
    · rw [eq, after_self.1, after_self.2] at is
      rw [eq]
      exact ⟨keeps x is, fun _ => is⟩
    · rw [(after_other eq).1, (after_other eq).2] at is
      exact ⟨is, fun same => absurd same eq⟩
  refine ⟨inv.zero, inv.low, inv.high, listed, fun u v is => ?_, fun u => ?_, fun u x is => ?_,
    fun u w x is is' => inv.own u w x (before is).1 (before is').1⟩
  · by_cases eq : u = t
    · rw [eq, after_self.2] at is
      exact inv.range t v (range v is)
    · rw [(after_other eq).2] at is
      exact inv.range u v is
  · by_cases eq : u = t
    · rw [eq, after_self.1, after_self.2]
      exact knows
    · rw [(after_other eq).2]
      exact (inv.knows u).other known right act eq
  · obtain ⟨old, new⟩ := before is
    exact ⟨(inv.new u x old).1, unlinked u x old new⟩

theorem Inv.quiet (inv : Inv init list s) (known : Known cfg init s.rlu)
    (right : RightSlot s.rlu a) (act : ActEffect cfg s.rlu a t e) (notLeaving : e.1.pc ≠ .readerUnlock)
    (range : ∀ v, pc.val = some v → (s.pc t).val = some v)
    (knows : Knows init list t e.1 (view init (s.rlu.apply t e.1 e.2) t) pc)
    (keeps : ∀ x, newNode e.1 pc = some x → newNode (s.rlu.thread t) (s.pc t) = some x) :
    Inv init list (after s t e pc) :=
  inv.library known right act
    (inv.listed.step known.sound known.snap.versions right act notLeaving) range knows keeps
    fun u x is _ => (inv.new u x is).2.step inv.listed known.sound known.snap.versions right act
      notLeaving

theorem Knows.newNode {op : Harris.Op} {v : Int} {result : Bool}
    (hpc : s.pc t = .readerUnlock op v result)
    (knows : Knows init list t (s.rlu.thread t) (view init s.rlu t) (.readerUnlock op v result))
    (write : (s.rlu.thread t).isWriteDetected = true) (add : op = .add) :
    RluList.newNode (s.rlu.thread t) (s.pc t) =
      some (splice (s.rlu.thread t) (s.rlu.thread t).wsTailCounter).new := by
  rw [hpc, add, (knows.2.2.1 write).1]
  rfl

/-- The write set of a call that is about to end its section. -/
theorem Inv.ending (inv : Inv init list s) (known : Known cfg init s.rlu) {op : Harris.Op} {v : Int}
    {result : Bool} (hpc : s.pc t = .readerUnlock op v result)
    (here : (s.rlu.thread t).pc = .inSection) (write : (s.rlu.thread t).isWriteDetected = true) :
    Ending cfg init list s.used s.rlu t := by
  have knows := inv.knows t
  rw [hpc] at knows
  obtain ⟨-, ready⟩ := knows.2.2.1 write
  refine ⟨known, inv.listed, here, ready.twin, ?_⟩
  by_cases add : op = .add
  · exact .inl (inv.new t _ (knows.newNode hpc write add)).2
  · have removes : op = .remove := by
      have update := ready.update
      cases op with
      | contains => exact absurd rfl update
      | add => exact absurd rfl add
      | remove => rfl
    exact .inr (ready.removes removes).1

theorem Inv.leave (inv : Inv init list s) (known : Known cfg init s.rlu) (words : 2 ≤ cfg.objWords)
    {op : Harris.Op} {v : Int} {result : Bool} (hpc : s.pc t = .readerUnlock op v result)
    (act : ActEffect cfg s.rlu (.call t .readerUnlock) t e) (leaving : e.1.pc = .readerUnlock) :
    Inv init list (after s t e (.leaving op v result)) := by
  obtain ⟨-, here, effect⟩ := act.leaves leaving
  have knows := inv.knows t
  rw [hpc] at knows
  have commits := knows.2.2.1
  have new := knows.newNode hpc
  have ending := inv.ending known hpc here
  have reached (write : (s.rlu.thread t).isWriteDetected = true) (notAdd : op ≠ .add) :
      Reached list (newestAt init s.rlu) (splice (s.rlu.thread t) (s.rlu.thread t).wsTailCounter).new := by
    obtain ⟨-, ready⟩ := commits write
    have removes : op = .remove := by
      cases op with
      | contains => exact absurd rfl ready.update
      | add => exact absurd rfl notAdd
      | remove => rfl
    have fits := ((ending write).newest words).fits
    have removes := (ending write).removes words (ready.removes removes).1
    rw [removes.skip]
    exact fits.after_reached.tail ⟨removes.inner, rfl⟩
  have listed : Listed init list s.used (ended s.rlu t) := by
    refine inv.listed.leave known words here ending fun write => ?_
    by_cases add : op = .add
    · exact (inv.new t _ (new write add)).1
    · exact (inv.listed.isList _).reached _ (reached write add)
  have right : RightSlot s.rlu (.call t .readerUnlock) := by
    unfold RightSlot
    trivial
  subst effect
  refine inv.library known right act listed (fun w is => ?_) trivial (fun x is => ?_)
    fun u x is mine => ?_
  · rw [hpc]
    exact is
  · cases is
  · refine (inv.new u x is).2.leave here fun write same => ?_
    by_cases add : op = .add
    · rw [same] at new
      obtain rfl := inv.own t u x (new write add) is
      cases mine rfl
    · exact (inv.new u x is).2.off _ (same ▸ reached write add)

end Library

/-! ### Steps of a call -/

theorem newNode_local {th : Thread Word} {pc pc' : Pc} (moved : local_ s.rlu th pc = some pc') :
    newNode th pc' = none := by
  have inner {q : Pc} (moved : (if th.pc.kind = .inSection then some q else none) = some pc') :
      q = pc' := by
    split_ifs at moved
    exact Option.some.inj moved
  cases pc with
  | prev op v =>
    obtain rfl := inner moved
    rfl
  | loadVal op v prev =>
    unfold local_ at moved
    dsimp only at moved
    split_ifs at moved
    obtain ⟨w, -, rfl⟩ := Option.map_eq_some_iff.mp moved
    split_ifs
    · rfl
    · cases op with
      | contains => rfl
      | add | remove =>
        unfold found
        dsimp only
        split_ifs <;> rfl
  | takeN v prev n =>
    obtain rfl := inner moved
    rfl
  | locked v n prev =>
    obtain rfl := inner moved
    cases n with
    | none => rfl
    | some n => cases n <;> rfl
  | leaving op v result =>
    unfold local_ at moved
    dsimp only at moved
    split_ifs at moved
    obtain rfl := Option.some.inj moved
    rfl
  | idle | done | readerLock | derefHead | loadNext | loadN | lockPrev | lockNext | malloc | assign
  | free | readerUnlock => cases moved

theorem val_local {th : Thread Word} {pc pc' : Pc} (moved : local_ s.rlu th pc = some pc') {v : Int}
    (is : pc'.val = some v) : pc.val = some v := by
  have inner {q : Pc} (moved : (if th.pc.kind = .inSection then some q else none) = some pc') :
      q = pc' := by
    split_ifs at moved
    exact Option.some.inj moved
  cases pc with
  | prev op w | takeN w prev n =>
    obtain rfl := inner moved
    exact is
  | loadVal op w prev =>
    unfold local_ at moved
    dsimp only at moved
    split_ifs at moved
    obtain ⟨x, -, rfl⟩ := Option.map_eq_some_iff.mp moved
    split_ifs at is
    · exact is
    · cases op with
      | contains => exact is
      | add | remove =>
        unfold found at is
        dsimp only at is
        split_ifs at is <;> exact is
  | locked w n prev =>
    obtain rfl := inner moved
    cases n <;> exact is
  | leaving op w result =>
    unfold local_ at moved
    dsimp only at moved
    split_ifs at moved
    obtain rfl := Option.some.inj moved
    cases is
  | idle | done | readerLock | derefHead | loadNext | loadN | lockPrev | lockNext | malloc | assign
  | free | readerUnlock => cases moved

theorem Inv.moves (inv : Inv init list s) {pc : Pc} (range : ∀ v, pc.val = some v →
      listValMin < v ∧ v < listValMax)
    (knows : Knows init list t (s.rlu.thread t) (view init s.rlu t) pc)
    (none_ : newNode (s.rlu.thread t) pc = none) : Inv init list (s.set t s.rlu pc) := by
  have before {u x : Nat}
      (is : newNode (s.rlu.thread u) (Function.update s.pc t pc u) = some x) :
      newNode (s.rlu.thread u) (s.pc u) = some x := by
    by_cases eq : u = t
    · rw [eq, Function.update_self, none_] at is
      cases is
    · rw [Function.update_of_ne eq] at is
      exact is
  refine { inv with
    range := fun u v is => ?_
    knows := fun u => ?_
    new := fun u x is => inv.new u x (before is)
    own := fun u w x is is' => inv.own u w x (before is) (before is') }
  · rw [State.set_pc] at is
    by_cases eq : u = t
    · rw [eq, Function.update_self] at is
      exact range v is
    · rw [Function.update_of_ne eq] at is
      exact inv.range u v is
  · rw [State.set_pc]
    by_cases eq : u = t
    · rw [eq, Function.update_self]
      exact knows
    · rw [Function.update_of_ne eq]
      exact inv.knows u

theorem request_val {th : Thread Word} {pc pc' : Pc} {op : ReadLogUpdate.Op Word}
    (req : request list s.rlu th pc = some (op, pc')) {v : Int} (is : pc'.val = some v) :
    pc.val = some v := by
  have same {o : ReadLogUpdate.Op Word} {q : Pc} (req : some (o, q) = some (op, pc')) : q = pc' :=
    (Prod.mk.inj (Option.some.inj req)).2
  cases pc with
  | readerLock | derefHead | lockPrev | free | readerUnlock =>
    obtain rfl := same req
    exact is
  | loadNext | loadN =>
    obtain ⟨w, -, eq⟩ := Option.map_eq_some_iff.mp req
    obtain rfl := (Prod.mk.inj eq).2
    exact is
  | lockNext w n next_ | locked w n prev =>
    unfold request at req
    dsimp only at req
    split at req
    · obtain rfl := same req
      exact is
    · cases req <;> exact is
  | assign w prev new next_ =>
    cases prev with
    | copy c =>
      obtain rfl := same req
      cases next_ <;> exact is
    | null | actual => cases req
  | idle | done | prev | loadVal | takeN | malloc | leaving => cases req

/-- What the store of an add makes the write set link. -/
theorem stored_new {th th' : Thread Word} {y : Nat} (ok : ThreadOk cfg t th)
    (eff : th' = ((th.modifyObj th.wsCurId 0 fun e =>
      { e with copy := Function.update e.copy 1 (.ptr (.actual y)) }).go .inSection).1) :
    (splice th' th'.wsTailCounter).new = y := by
  have tail : th'.wsTailCounter = th.wsTailCounter := by
    rw [eff]
    rfl
  have cur : th'.objWriteSet (wsIndex th.wsTailCounter) = th.cur.modifyObj 0 fun e =>
      { e with copy := Function.update e.copy 1 (.ptr (.actual y)) } := by
    rw [eff, ← ok.curId]
    exact Function.update_self _ _ _
  unfold splice Thread.entry
  rw [tail, cur, WriteSet.modifyObj_buffer_self]
  rfl

theorem request_newNode {th : Thread Word} {V : Nat → Nat → Word} {e : Effect Word} {pc pc' : Pc}
    {op : ReadLogUpdate.Op Word} (ok : ThreadOk cfg t th) (knows : Knows init list t th V pc)
    (req : request list s.rlu th pc = some (op, pc'))
    (called : call cfg s.rlu t th op th.pc = some e) {x : Nat} (is : newNode e.1 pc' = some x) :
    newNode th pc = some x := by
  have same {o : ReadLogUpdate.Op Word} {q : Pc} (req : some (o, q) = some (op, pc')) : q = pc' :=
    (Prod.mk.inj (Option.some.inj req)).2
  cases pc with
  | readerLock | derefHead | lockPrev | free | readerUnlock =>
    obtain rfl := same req
    cases is
  | loadNext | loadN =>
    obtain ⟨w, -, eq⟩ := Option.map_eq_some_iff.mp req
    obtain rfl := (Prod.mk.inj eq).2
    cases is
  | lockNext w n next_ | locked w n prev =>
    unfold request at req
    dsimp only at req
    split at req
    · obtain rfl := same req
      cases is
    · cases req <;> cases is
  | assign w prev new next_ =>
    cases next_ with
    | some p =>
      cases prev with
      | copy c =>
        obtain rfl := same req
        cases is
      | null | actual => cases req
    | none =>
      obtain ⟨y, -, both, a, rfl, -⟩ := knows
      have copied := both.copy
      subst copied
      have req : some (Op.store ⟨t, th.wsCurId, 0⟩ 1 (Word.ptr (.actual a)),
          Pc.readerUnlock .add w true) = some (op, pc') := req
      obtain ⟨rfl, rfl⟩ := Prod.mk.inj (Option.some.inj req)
      obtain ⟨-, called⟩ := call_inSection called (.inr (.inr (.inl ⟨_, _, _, rfl⟩)))
      have eff := store_call (by rw [both.count]; omega) called
      have new := stored_new ok (congrArg Prod.fst eff)
      rw [← is, ← new]
      rfl
  | idle | done | prev | loadVal | takeN | malloc | leaving => cases req

theorem request_readerUnlock {th : Thread Word} {pc pc' : Pc}
    (req : request list s.rlu th pc = some (.readerUnlock, pc')) :
    ∃ op v result, pc = .readerUnlock op v result ∧ pc' = .leaving op v result := by
  cases pc with
  | readerUnlock op v result => exact ⟨op, v, result, rfl, (Prod.mk.inj (Option.some.inj req)).2.symm⟩
  | loadNext | loadN =>
    obtain ⟨w, -, eq⟩ := Option.map_eq_some_iff.mp req
    cases (Prod.mk.inj eq).1
  | lockNext w n next_ | locked w n prev =>
    unfold request at req
    dsimp only at req
    split at req <;> cases req
  | assign w prev new next_ =>
    cases prev <;> cases req
  | _ => cases req

theorem Inv.calls (inv : Inv init list s) (known : Known cfg init s.rlu) (words : 2 ≤ cfg.objWords)
    {op : ReadLogUpdate.Op Word} {pc : Pc} {e : Effect Word}
    (req : request list s.rlu (s.rlu.thread t) (s.pc t) = some (op, pc))
    (called : call cfg s.rlu t (s.rlu.thread t) op (s.rlu.thread t).pc = some e) :
    Inv init list (after s t e pc) := by
  have act : ActEffect cfg s.rlu (.call t op) t e := .inl ⟨op, rfl, called⟩
  have right : RightSlot s.rlu (.call t op) := by
    unfold RightSlot
    trivial
  by_cases leaving : e.1.pc = .readerUnlock
  · obtain ⟨is, -, -⟩ := act.leaves leaving
    obtain rfl := (Act.call.inj is).2
    obtain ⟨o, v, result, hpc, rfl⟩ := request_readerUnlock req
    exact inv.leave known words hpc act leaving
  · refine inv.quiet known right act leaving (fun v is => request_val req is) ?_
      fun x is => request_newNode (known.sound.wf.threads t) (inv.knows t) req called is
    refine (inv.knows t).request known words inv.listed inv.zero req called (fun v is => ?_)
      fun v p a is => ?_
    · rw [inv.low, inv.high]
      exact inv.range t v is
    · have mine : newNode (s.rlu.thread t) (s.pc t) = some a := by
        rw [is]
        rfl
      obtain ⟨use, unlinked⟩ := inv.new t a mine
      have knows := inv.knows t
      rw [is] at knows
      obtain ⟨x, -, both, -⟩ := knows
      obtain ⟨-, here⟩ := known.inSection (t := t) (by rw [both.here]; exact .inl rfl)
      have way := known.way inv.listed here
      refine ⟨fun reached => ?_, ?_, ?_⟩
      · obtain ⟨S, lists⟩ := (inv.listed.isList (s.rlu.thread t).localVersion).lists
        unfold Reached view at reached
        rw [way.next_eq inv.listed known.sound] at reached
        rcases (way.allFit inv.listed known.sound).reached_back lists reached with old | ⟨w', mem, -, eq⟩
        · exact unlinked.off _ old
        · obtain ⟨w, hw, rfl⟩ := List.mem_map.mp mem
          exact unlinked.news _ _ (way.unpublished w hw) eq.symm
      · unfold view
        rw [overlay_of_forall_ne, at_, valueAt_of_forall_ne unlinked.objs]
        intro o ho
        obtain ⟨w, hw, i, lt, rfl⟩ := (way.mem o).mp ho
        rintro rfl
        refine unlinked.off (s.rlu.thread t).localVersion ?_
        obtain rfl | rfl : i = 0 ∨ i = 1 := by omega
        · exact (way.twins w hw).fits.reached
        · exact (way.twins w hw).fits.after_reached
      · rintro rfl
        rw [inv.zero] at use
        cases use

theorem Inv.lib (inv : Inv init list s) (known : Known cfg init s.rlu) (words : 2 ≤ cfg.objWords)
    {e : Effect Word} (right : RightSlot s.rlu (.lib t)) (act : ActEffect cfg s.rlu (.lib t) t e) :
    Inv init list (after s t e (s.pc t)) := by
  have notLeaving : e.1.pc ≠ .readerUnlock := by
    intro leaving
    cases (act.leaves leaving).1
  refine inv.quiet known right act notLeaving (fun v is => is)
    ((inv.knows t).lib known words right act) fun x is => ?_
  cases hpc : s.pc t with
  | readerUnlock op v result =>
    have knows := inv.knows t
    rw [hpc] at knows
    rcases act with ⟨op, act, -⟩ | ⟨-, stepped⟩
    · cases act
    · rw [libStep_inSection knows.1] at stepped
      cases stepped
  | assign v prev new n =>
    rw [hpc] at is
    cases new <;> cases n <;> exact is
  | _ =>
    rw [hpc] at is
    cases is

theorem Inv.finishes (inv : Inv init list s) (known : Known cfg init s.rlu) {e : Effect Word}
    (rest : (s.pc t).atRest = true) (act : ActEffect cfg s.rlu (.call t .finish) t e) :
    Inv init list (after s t e (s.pc t)) := by
  have notLeaving : e.1.pc ≠ .readerUnlock := by
    intro leaving
    cases (act.leaves leaving).1
  have right : RightSlot s.rlu (.call t .finish) := by
    unfold RightSlot
    trivial
  refine inv.quiet known right act notLeaving (fun v is => is) ?_ fun x is => ?_
  · cases hpc : s.pc t with
    | idle | done => trivial
    | _ =>
      rw [hpc] at rest
      cases rest
  · cases hpc : s.pc t with
    | assign | readerUnlock =>
      rw [hpc] at rest
      cases rest
    | _ =>
      rw [hpc] at is
      cases is

theorem Inv.mallocs (inv : Inv init list s) (known : Known cfg init s.rlu) (words : 2 ≤ cfg.objWords)
    {v : Int} {prev n : Ptr} {a : Nat} (hpc : s.pc t = .malloc v prev n) (nonzero : a ≠ 0)
    (unused : s.used a = false)
    (hdr : s.rlu.hdr a = .null) (val : s.rlu.obj a 0 = .val v)
    (link : s.rlu.obj a 1 = .ptr (s.rlu.forceActual n)) :
    Inv init list { s.set t s.rlu (.assign v prev (.actual a) none) with
      used := Function.update s.used a true } := by
  have unlinked := inv.listed.unlinked unused
  have knows := inv.knows t
  rw [hpc] at knows
  have range := inv.range t v (by rw [hpc]; rfl)
  have knows' := knows.malloc known words hdr unlinked.objs val link
  have plain : (init a 1).Plain := by
    obtain ⟨x, plan, both, b, same, -, contents⟩ := knows'
    obtain rfl := Ptr.actual.inj same
    obtain ⟨-, here⟩ := known.inSection (t := t) (by rw [both.here]; exact .inl rfl)
    have isList := known.view_isList inv.listed here
    have node := isList.next_node inv.zero plan.behind.1 plan.behind.2.1
    refine ⟨next (view init s.rlu t) x, contents.trans (congrArg Word.ptr (if_neg ?_).symm)⟩
    intro eq
    have use := isList.reached _ node.1
    rw [eq, inv.zero] at use
    cases use
  have before {u x : Nat} (is : newNode (s.rlu.thread u)
      (Function.update s.pc t (.assign v prev (.actual a) none) u) = some x) :
      u = t ∧ x = a ∨ u ≠ t ∧ newNode (s.rlu.thread u) (s.pc u) = some x := by
    by_cases eq : u = t
    · rw [eq, Function.update_self] at is
      exact .inl ⟨eq, (Option.some.inj is).symm⟩
    · rw [Function.update_of_ne eq] at is
      exact .inr ⟨eq, is⟩
  have other {u x : Nat} (is : newNode (s.rlu.thread u) (s.pc u) = some x) : x ≠ a := by
    rintro rfl
    have use := (inv.new u x is).1
    rw [unused] at use
    cases use
  refine ⟨?_, inv.low, inv.high, inv.listed.malloc unused plain, fun u w is => ?_, fun u => ?_,
    fun u x is => ?_, fun u w x is is' => ?_⟩
  · show Function.update s.used a true 0 = false
    rw [Function.update_of_ne nonzero.symm]
    exact inv.zero
  · rw [State.set_pc] at is
    by_cases eq : u = t
    · rw [eq, Function.update_self] at is
      obtain rfl := Option.some.inj is
      exact range
    · rw [Function.update_of_ne eq] at is
      exact inv.range u w is
  · rw [State.set_pc]
    by_cases eq : u = t
    · rw [eq, Function.update_self]
      exact knows'
    · rw [Function.update_of_ne eq]
      exact inv.knows u
  · show Function.update s.used a true x = true ∧ _
    rcases before is with ⟨-, rfl⟩ | ⟨-, is⟩
    · exact ⟨Function.update_self _ _ _, unlinked⟩
    · rw [Function.update_of_ne (other is)]
      exact inv.new u x is
  · rcases before is with ⟨rfl, rfl⟩ | ⟨-, old⟩
    · rcases before is' with ⟨rfl, -⟩ | ⟨-, old'⟩
      · rfl
      · exact absurd rfl (other old')
    · rcases before is' with ⟨rfl, rfl⟩ | ⟨-, old'⟩
      · exact absurd rfl (other old)
      · exact inv.own u w x old old'

theorem Inv.threadInit (inv : Inv init list s) (n : Nat) :
    Inv init list { s with rlu := { s.rlu with gCurThreads := n } } :=
  { inv with
    listed := { inv.listed with
      beside := fun r l here => ⟨(inv.listed.beside r l here).own, (inv.listed.beside r l here).still⟩ }
    knows := inv.knows
    new := fun t a is => ⟨(inv.new t a is).1, (inv.new t a is).2.off, (inv.new t a is).2.news,
      (inv.new t a is).2.objs⟩
    own := inv.own }

theorem foresee_inv (inv : Inv init list s) (known : Known cfg init s.rlu) (words : 2 ≤ cfg.objWords)
    {a : Act} (allowed : Allowed list s a) (hs : foresee cfg list s a = some s') : Inv init list s' := by
  cases a with
  | threadInit =>
    simp only [foresee, step] at hs
    obtain ⟨rlu, stepped, rfl⟩ := Option.map_eq_some_iff.mp hs
    have fresh := known.sound.wf.threadInit
    obtain rfl := Option.some.inj stepped
    rw [fresh]
    exact inv.threadInit _
  | lib t =>
    simp only [foresee, step] at hs
    obtain ⟨rlu, stepped, rfl⟩ := Option.map_eq_some_iff.mp hs
    simp only [ReadLogUpdate.step] at stepped
    split_ifs at stepped
    obtain ⟨e, called, rfl⟩ := Option.map_eq_some_iff.mp stepped
    have kept := inv.lib known words (allowed (.lib t) rfl).2 (.inr ⟨rfl, called⟩)
    rw [after, State.set, Function.update_eq_self] at kept
    exact kept
  | start t op v =>
    simp only [foresee, step] at hs
    split_ifs at hs with enabled
    obtain rfl := Option.some.inj hs
    exact inv.moves (fun w is => Option.some.inj is ▸ enabled.2) trivial rfl
  | client t =>
    simp only [foresee, step] at hs
    split at hs
    · rename_i op pc req
      obtain ⟨rlu, stepped, rfl⟩ := Option.map_eq_some_iff.mp hs
      simp only [ReadLogUpdate.step] at stepped
      split_ifs at stepped
      obtain ⟨e, called, rfl⟩ := Option.map_eq_some_iff.mp stepped
      exact inv.calls known words req called
    · obtain ⟨pc, moved, rfl⟩ := Option.map_eq_some_iff.mp hs
      refine inv.moves (fun v is => inv.range t v (val_local moved is)) ?_ (newNode_local moved)
      refine (inv.knows t).local_ known words inv.listed inv.zero moved fun v is => ?_
      rw [inv.low, inv.high]
      exact inv.range t v is
  | malloc t a =>
    simp only [foresee] at hs
    split at hs
    · rename_i v prev n hpc
      split_ifs at hs with enabled
      obtain ⟨nonzero, unused, hdr, val, link⟩ := enabled
      obtain rfl := Option.some.inj hs
      exact inv.mallocs known words hpc nonzero unused hdr val link
    · cases hs
  | finish t =>
    simp only [foresee, step] at hs
    split_ifs at hs with rest
    obtain ⟨rlu, stepped, rfl⟩ := Option.map_eq_some_iff.mp hs
    simp only [ReadLogUpdate.step] at stepped
    split_ifs at stepped
    obtain ⟨e, called, rfl⟩ := Option.map_eq_some_iff.mp stepped
    have kept := inv.finishes known rest (.inl ⟨_, rfl, called⟩)
    rw [after, State.set, Function.update_eq_self] at kept
    exact kept

theorem Foreseen.known (h : Foreseen cfg list init s) : Known cfg init s.rlu := known_of_reachable h.rlu

theorem Foreseen.inv (h : Foreseen cfg list init s) (words : 2 ≤ cfg.objWords) : Inv init list s :=
  System.Reachable.invariant_of (Inv init list) (fun _ h => Foreseen.known h)
    (fun _ start => start_inv start)
    (fun _ _ _ known _ inv allowed hs => foresee_inv inv known words allowed hs) h

end ReadLogUpdate.RluList
