import Mathlib.Data.List.Nodup
import ReadLogUpdate.Harris.Accounting
import ReadLogUpdate.RluList.Invariant

/-!
# The newest list is one set

The contents that the sections so far have left make a sorted list in every state of every run. Its
keys change only where the section of an add or a remove that succeeds ends: there they gain or
lose the value of the call. So the calls that succeed count what is on the list.
-/

namespace ReadLogUpdate.RluList

open Harris (ListT listValMin listValMax)
open Chain

variable {cfg : Config} {init : Nat → Nat → Word} {list : ListT} {used : Nat → Bool}

section Newest
variable {s : ReadLogUpdate.State Word} {t : Nat}

def staged (t : Nat) (th : Thread Word) : List (Nat × Nat) :=
  if th.flight.isSome then []
  else pending t th ++ if th.staged then [(t, th.wsTailCounter)] else []

theorem mem_staged {th : Thread Word} (ordered : th.wsWbCounter ≤ th.wsTailCounter) {w : Nat × Nat} :
    w ∈ staged t th ↔ w.1 = t ∧ th.Unpublished w.2 := by
  unfold staged Thread.Unpublished
  cases flight : th.flight with
  | some v =>
    constructor
    · intro mem
      cases mem
    · rintro ⟨-, none, -⟩
      cases none
  | none =>
    rw [if_neg (by simp), List.mem_append, mem_pending]
    constructor
    · rintro (⟨eq, ge, lt⟩ | mem)
      · exact ⟨eq, rfl, ge, .inl lt⟩
      · by_cases stage : th.staged = true
        · rw [if_pos stage, List.mem_singleton] at mem
          rw [mem]
          exact ⟨rfl, rfl, ordered, .inr ⟨rfl, stage⟩⟩
        · rw [if_neg stage] at mem
          cases mem
    · rintro ⟨eq, -, ge, lt | ⟨at_, stage⟩⟩
      · exact .inl ⟨eq, ge, lt⟩
      · rw [if_pos stage, List.mem_singleton]
        exact .inr (Prod.ext eq at_)

theorem staged_nodup {th : Thread Word} : (staged t th).Nodup := by
  unfold staged
  split_ifs with flying stage
  · exact List.nodup_nil
  · refine List.nodup_append.mpr ⟨List.Nodup.map (fun a b same => (Prod.mk.inj same).2)
      List.nodup_range', List.nodup_singleton _, fun w mem w' mem' => ?_⟩
    rintro rfl
    rw [List.mem_singleton] at mem'
    obtain ⟨-, -, lt⟩ := mem_pending.mp mem
    rw [mem'] at lt
    exact lt_irrefl _ lt
  · rw [List.append_nil]
    exact List.Nodup.map (fun a b same => (Prod.mk.inj same).2) List.nodup_range'

def allStaged (s : ReadLogUpdate.State Word) : List (Nat × Nat) :=
  (List.range s.gCurThreads).flatMap fun t => staged t (s.thread t)

theorem mem_allStaged (sound : Sound cfg s) {w : Nat × Nat} :
    w ∈ allStaged s ↔ (s.thread w.1).Unpublished w.2 := by
  unfold allStaged
  rw [List.mem_flatMap]
  constructor
  · rintro ⟨t, -, mem⟩
    obtain ⟨rfl, on⟩ := (mem_staged (sound.wf.threads t).wb_le_tail).mp mem
    exact on
  · intro on
    exact ⟨w.1, List.mem_range.mpr (sound.started on),
      (mem_staged (sound.wf.threads w.1).wb_le_tail).mpr ⟨rfl, on⟩⟩

theorem allStaged_nodup (sound : Sound cfg s) : (allStaged s).Nodup := by
  unfold allStaged
  refine List.nodup_flatMap.mpr ⟨fun t _ => staged_nodup, ?_⟩
  refine List.Pairwise.imp ?_ List.nodup_range
  intro t u ne w mem mem'
  have first := ((mem_staged (sound.wf.threads t).wb_le_tail).mp mem).1
  have second := ((mem_staged (sound.wf.threads u).wb_le_tail).mp mem').1
  exact ne (first.symm.trans second)

/-- The newest contents are the published ones under all that are on their way. -/
theorem Listed.newest_way (listed : Listed init list used s) (sound : Sound cfg s) :
    OnTheWay init list s (newestAt init s) (allStaged s)
      ((List.range s.gCurThreads).flatMap fun t => (s.thread t).unpublishedObjs) := by
  refine ⟨allStaged_nodup sound, fun w mem => (mem_allStaged sound).mp mem,
    fun w mem => listed.twins _ _ ((mem_allStaged sound).mp mem), fun e => ?_⟩
  rw [sound.mem_unpublished]
  constructor
  · rintro ⟨t, ctr, i, on, num, rfl⟩
    rw [(listed.twins t ctr on).two] at num
    exact ⟨(t, ctr), (mem_allStaged sound).mpr on, i, num, rfl⟩
  · rintro ⟨w, mem, i, lt, rfl⟩
    have on := (mem_allStaged sound).mp mem
    exact ⟨w.1, w.2, i, on, by rw [(listed.twins _ _ on).two]; exact lt, rfl⟩

theorem Listed.newest_isList (listed : Listed init list used s) (sound : Sound cfg s) :
    IsList init list used (s.newest init) :=
  (listed.newest_way sound).isList listed sound (listed.isList _)

theorem newest_clean (here : (s.thread t).pc = .inSection)
    (clean : (s.thread t).isWriteDetected = false) : (ended s t).newest init = s.newest init := by
  have same (u : Nat) : ((ended s t).thread u).unpublishedObjs = (s.thread u).unpublishedObjs := by
    by_cases eq : u = t
    · subst eq
      rw [ended_self]
      have before : (s.thread u).staged = false := by
        unfold Thread.staged
        rw [clean, Bool.and_false]
      unfold Thread.unpublishedObjs
      rw [before]
      unfold Thread.staged
      dsimp only
      rw [clean, Bool.and_false]
      rfl
    · rw [ended_thread eq]
  unfold State.newest
  simp only [same]
  rfl

/-- What is on the way stays there when a section ends. -/
theorem unpublished_ended {u ctr : Nat} (on : (s.thread u).Unpublished ctr)
    (here : (s.thread t).pc = .inSection) : ((ended s t).thread u).Unpublished ctr := by
  by_cases eq : u = t
  · subst eq
    obtain ⟨idle, ge, lt | ⟨-, stage⟩⟩ := on
    · rw [ended_self]
      exact ⟨idle, ge, .inl lt⟩
    · have leaving := (Thread.staged_iff.mp stage).1
      rw [here] at leaving
      cases leaving
  · rw [ended_thread eq]
    exact on

/-- The end of a section with a write set redirects one link. -/
theorem Ending.newest_next (ending : Ending cfg init list used s t) (words : 2 ≤ cfg.objWords)
    (sound' : Sound cfg (ended s t)) (write : (s.thread t).isWriteDetected = true) :
    (splice (s.thread t) (s.thread t).wsTailCounter).Fits (next (s.newest init)) (key init)
      list.pHead list.pMax ∧
    next ((ended s t).newest init) = Function.update (next (s.newest init))
      (splice (s.thread t) (s.thread t).wsTailCounter).before
      (splice (s.thread t) (s.thread t).wsTailCounter).new := by
  have sound := ending.known.sound
  have listed := ending.listed
  have way := listed.newest_way sound
  have here := ending.here
  obtain ⟨S, lists⟩ := (listed.isList s.gWriterVersion).lists
  have twin := ending.newest words
  have fits : (splice (s.thread t) (s.thread t).wsTailCounter).Fits (next (s.newest init)) (key init)
      list.pHead list.pMax := by
    unfold State.newest
    rw [way.next_eq listed sound]
    refine ((way.allFit listed sound).lists lists).2 _ twin.fits fun w' mem => ?_
    obtain ⟨w, hw, rfl⟩ := List.mem_map.mp mem
    exact ⟨ending.apart (way.unpublished w hw), ending.new_ne words (way.unpublished w hw)⟩
  -- the entries of the write set are on their way now
  have on : ((ended s t).thread t).Unpublished (s.thread t).wsTailCounter := by
    obtain ⟨⟨-, -, idle, -⟩, -⟩ := ending.inSection
    rw [ended_self]
    refine ⟨idle, (sound.wf.threads t).wb_le_tail, .inr ⟨rfl, ?_⟩⟩
    exact Thread.staged_iff.mpr ⟨rfl, write⟩
  have entry (u ctr i : Nat) : ((ended s t).thread u).entry ctr i = (s.thread u).entry ctr i := by
    unfold Thread.entry
    rw [ended_sets]
  have mine {i : Nat} (lt : i < 2) :
      (ended s t).newest init ((s.thread t).entry (s.thread t).wsTailCounter i).pObjActual =
        ((s.thread t).entry (s.thread t).wsTailCounter i).copy := by
    rw [← entry]
    refine sound'.newest_entry on ?_
    rw [ended_sets, twin.two]
    exact lt
  have other {o : Nat} (ne : ∀ i < 2, ((s.thread t).entry (s.thread t).wsTailCounter i).pObjActual ≠ o) :
      (ended s t).newest init o = s.newest init o := by
    by_cases named : ∃ u ctr i, (s.thread u).Unpublished ctr ∧
        i < ((s.thread u).objWriteSet (wsIndex ctr)).numOfObjs ∧
        ((s.thread u).entry ctr i).pObjActual = o
    · obtain ⟨u, ctr, i, on, num, rfl⟩ := named
      rw [sound.newest_entry on num, ← entry]
      exact sound'.newest_entry (unpublished_ended on here) (by rw [ended_sets]; exact num)
    · have free (u ctr i : Nat) (on : (s.thread u).Unpublished ctr)
          (num : i < ((s.thread u).objWriteSet (wsIndex ctr)).numOfObjs) :
          ((s.thread u).entry ctr i).pObjActual ≠ o := fun same => named ⟨u, ctr, i, on, num, same⟩
      rw [sound.newest_other free, sound'.newest_other fun u ctr i on num => ?_]
      · rfl
      · rw [entry]
        rw [ended_sets] at num
        rcases ended_unpublished on here with old | ⟨rfl, rfl, -⟩
        · exact free u ctr i old num
        · rw [twin.two] at num
          exact ne i num
  refine ⟨fits, funext fun o => ?_⟩
  by_cases first : o = (splice (s.thread t) (s.thread t).wsTailCounter).before
  · rw [first, Function.update_self]
    exact congrArg (fun c : Nat → Word => (c 1).addr) (mine (i := 0) (by omega))
  · rw [Function.update_of_ne first]
    by_cases second : o = (splice (s.thread t) (s.thread t).wsTailCounter).after
    · have published : s.newest init (splice (s.thread t) (s.thread t).wsTailCounter).after =
          newestAt init s (splice (s.thread t) (s.thread t).wsTailCounter).after := by
        refine sound.newest_other fun u ctr i on num => ?_
        rw [(listed.twins u ctr on).two] at num
        exact ending.ne (by omega) on num
      rw [second, next, next, published]
      have rest := twin.rest
      rw [← congrFun (mine (i := 1) (by omega)) 1] at rest
      exact congrArg Word.addr rest
    · rw [next, next, other]
      intro i lt
      obtain rfl | rfl : i = 0 ∨ i = 1 := by omega
      · exact fun same => first same.symm
      · exact fun same => second same.symm

end Newest

/-! ### The set that the calls change -/

def settled (a : Act) (s' : State) : Option Harris.Return :=
  match a with
  | .client t =>
    match s'.pc t with
    | .leaving op v result => some ⟨op, v, result⟩
    | _ => none
  | _ => none

def applied (r : Harris.Return) (S : Finset Int) : Finset Int :=
  match r.op, r.result with
  | .add, true => insert r.key S
  | .remove, true => S.erase r.key
  | _, _ => S

def Holding (init : Nat → Nat → Word) (list : ListT) (s : State) (S : Finset Int) : Prop :=
  Lists (next (s.rlu.newest init)) (key init) list.pHead list.pMax S

/-- The step leaves the newest list as it is, or is the end of the section of a call that makes the
change of its result. -/
structure Updates (init : Nat → Nat → Word) (list : ListT) (a : Act) (s' : State) (S : Finset Int) :
    Prop where
  quiet : settled a s' = none → Holding init list s' S
  settles : ∀ r, settled a s' = some r → Holding init list s' (applied r S) ∧
    (r.result = true → (r.op = .add → r.key ∉ S) ∧ (r.op = .remove → r.key ∈ S))

section Step
variable {s s' : State} {t : Nat}

theorem Updates.of_quiet {a : Act} {S : Finset Int} (none_ : settled a s' = none)
    (holding : Holding init list s' S) : Updates init list a s' S := by
  refine ⟨fun _ => holding, fun r is => ?_⟩
  rw [none_] at is
  cases is

theorem newest_threadInit (known : Known cfg init s.rlu) :
    ({ s.rlu with gCurThreads := s.rlu.gCurThreads + 1 } : ReadLogUpdate.State Word).newest init =
      s.rlu.newest init := by
  have fresh := known.sound.wf.fresh s.rlu.gCurThreads (Nat.le_refl _)
  unfold State.newest
  dsimp only
  rw [List.range_succ, List.flatMap_append, List.flatMap_singleton, fresh]
  show overlay (_ ++ []) _ = _
  rw [List.append_nil]

theorem local_notLeaving {th : Thread Word} {pc pc' : Pc} (moved : local_ s.rlu th pc = some pc')
    {op : Harris.Op} {v : Int} {result : Bool} : pc' ≠ .leaving op v result := by
  rintro rfl
  cases pc with
  | prev | takeN | leaving =>
    unfold local_ at moved
    dsimp only at moved
    split_ifs at moved
    cases moved
  | loadVal op v prev =>
    unfold local_ at moved
    dsimp only at moved
    split_ifs at moved
    obtain ⟨w, -, eq⟩ := Option.map_eq_some_iff.mp moved
    split_ifs at eq
    cases op with
    | contains => cases eq
    | add | remove =>
      unfold found at eq
      split_ifs at eq
  | locked v n prev =>
    unfold local_ at moved
    dsimp only at moved
    split_ifs at moved
    cases n <;> cases moved
  | idle | done | readerLock | derefHead | loadNext | loadN | lockPrev | lockNext | malloc | assign
  | free | readerUnlock => cases moved

theorem request_leaving {th : Thread Word} {pc : Pc} {op : ReadLogUpdate.Op Word} {o : Harris.Op}
    {v : Int} {result : Bool} (req : request list s.rlu th pc = some (op, .leaving o v result)) :
    op = .readerUnlock ∧ pc = .readerUnlock o v result := by
  cases pc with
  | readerUnlock op' v' result' =>
    obtain ⟨is, same⟩ := Prod.mk.inj (Option.some.inj req)
    obtain ⟨rfl, rfl, rfl⟩ := Pc.leaving.inj same
    exact ⟨is.symm, rfl⟩
  | loadNext | loadN =>
    obtain ⟨w, -, eq⟩ := Option.map_eq_some_iff.mp req
    cases (Prod.mk.inj eq).2
  | lockNext w n next_ | locked w n prev =>
    unfold request at req
    dsimp only at req
    split at req <;> cases req
  | assign w prev new next_ =>
    cases prev with
    | copy c => cases next_ <;> cases (Prod.mk.inj (Option.some.inj req)).2
    | null | actual => cases req
  | readerLock | derefHead | lockPrev | free => cases (Prod.mk.inj (Option.some.inj req)).2
  | idle | done | prev | loadVal | takeN | malloc | leaving => cases req

theorem Inv.leave_updates (inv : Inv init list s) (known : Known cfg init s.rlu)
    (words : 2 ≤ cfg.objWords) {op : Harris.Op} {v : Int} {result : Bool}
    (hpc : s.pc t = .readerUnlock op v result) (here : (s.rlu.thread t).pc = .inSection)
    (sound' : Sound cfg (ended s.rlu t)) {S : Finset Int} (holding : Holding init list s S)
    (rlu : s'.rlu = ended s.rlu t) : Holding init list s' (applied ⟨op, v, result⟩ S) ∧
      (result = true → (op = .add → v ∉ S) ∧ (op = .remove → v ∈ S)) := by
  have knows := inv.knows t
  rw [hpc] at knows
  obtain ⟨-, -, commits, writes⟩ := knows
  unfold Holding
  rw [rlu]
  by_cases write : (s.rlu.thread t).isWriteDetected = true
  · obtain ⟨rfl, ready⟩ := commits write
    have ending := inv.ending known hpc here write
    obtain ⟨fits, links⟩ := ending.newest_next words sound' write
    obtain ⟨S', lists, adds, removes⟩ := fits.lists holding
    rw [links]
    cases op with
    | contains => exact absurd rfl ready.update
    | add =>
      obtain ⟨change, keyed⟩ := ready.adds rfl
      have adding : (splice (s.rlu.thread t) (s.rlu.thread t).wsTailCounter).Adds
          (next (s.rlu.newest init)) (key init) list.pHead list.pMax := by
        rcases fits.change with adding | removing
        · exact adding
        · have above := holding.sorted.key_lt _ fits.after_reached removing.inner
          rw [← removing.skip] at above
          exact absurd change.below above.not_gt
      obtain ⟨absent, rfl⟩ := adds adding
      rw [keyed] at absent lists
      exact ⟨lists, fun _ => ⟨fun _ => absent, by simp⟩⟩
    | remove =>
      obtain ⟨change, keyed⟩ := ready.removes rfl
      have removing : (splice (s.rlu.thread t) (s.rlu.thread t).wsTailCounter).Removes
          (next (s.rlu.newest init)) list.pMax := by
        rcases fits.change with adding | removing
        · obtain ⟨S, lists⟩ := (known.view_isList inv.listed ending.inSection.2).lists
          have above := lists.sorted.key_lt _ ready.twin.fits.after_reached change.inner
          rw [← change.skip] at above
          exact absurd adding.below above.not_gt
        · exact removing
      obtain ⟨present, rfl, -⟩ := removes removing
      rw [keyed] at present lists
      exact ⟨lists, fun _ => ⟨by simp, fun _ => present⟩⟩
  · rw [newest_clean here (Bool.eq_false_iff.mpr write)]
    have nothing : result = true → op = .contains := by
      intro is
      by_contra other
      exact write (writes is other)
    refine ⟨?_, fun is => ?_⟩
    · cases result with
      | true =>
        obtain rfl := nothing rfl
        exact holding
      | false => cases op <;> exact holding
    · obtain rfl := nothing is
      exact ⟨by simp, by simp⟩

theorem settled_client {pc : Pc} (at_ : s'.pc t = pc)
    (other : ∀ op v result, pc ≠ .leaving op v result) : settled (.client t) s' = none := by
  unfold settled
  dsimp only
  rw [at_]
  cases pc with
  | leaving op v result => exact absurd rfl (other op v result)
  | _ => rfl

/-- Every step makes the change of the call that it settles. -/
theorem foresee_updates (inv : Inv init list s) (known : Known cfg init s.rlu)
    (known' : Known cfg init s'.rlu) (words : 2 ≤ cfg.objWords) {a : Act}
    (allowed : Allowed list s a) (hs : foresee cfg list s a = some s') {S : Finset Int}
    (holding : Holding init list s S) : Updates init list a s' S := by
  have same {a : Act} (none_ : settled a s' = none) (newest : s'.rlu.newest init = s.rlu.newest init) :
      Updates init list a s' S := by
    refine .of_quiet none_ ?_
    unfold Holding
    rw [newest]
    exact holding
  cases a with
  | threadInit =>
    simp only [foresee, step] at hs
    obtain ⟨rlu, stepped, rfl⟩ := Option.map_eq_some_iff.mp hs
    have fresh := known.sound.wf.threadInit
    obtain rfl := Option.some.inj stepped
    refine same rfl ?_
    rw [fresh]
    exact newest_threadInit known
  | lib t =>
    simp only [foresee, step] at hs
    obtain ⟨rlu, stepped, rfl⟩ := Option.map_eq_some_iff.mp hs
    simp only [ReadLogUpdate.step] at stepped
    split_ifs at stepped
    obtain ⟨e, called, rfl⟩ := Option.map_eq_some_iff.mp stepped
    have act : ActEffect cfg s.rlu (.lib t) t e := .inr ⟨rfl, called⟩
    have right := (allowed (.lib t) rfl).2
    refine same rfl (newest_step known.sound known'.sound known.snap.versions right act ?_)
    intro leaving
    cases (act.leaves leaving).1
  | start t op v =>
    simp only [foresee, step] at hs
    split_ifs at hs
    obtain rfl := Option.some.inj hs
    exact same rfl rfl
  | client t =>
    simp only [foresee, step] at hs
    split at hs
    · rename_i op pc req
      obtain ⟨rlu, stepped, rfl⟩ := Option.map_eq_some_iff.mp hs
      simp only [ReadLogUpdate.step] at stepped
      split_ifs at stepped
      obtain ⟨e, called, rfl⟩ := Option.map_eq_some_iff.mp stepped
      have act : ActEffect cfg s.rlu (.call t op) t e := .inl ⟨op, rfl, called⟩
      have right : RightSlot s.rlu (.call t op) := by
        unfold RightSlot
        trivial
      by_cases leaving : e.1.pc = .readerUnlock
      · obtain ⟨is, here, effect⟩ := act.leaves leaving
        obtain rfl := (Act.call.inj is).2
        obtain ⟨o, v, result, hpc, rfl⟩ := request_readerUnlock req
        have event : settled (.client t) (s.set t (s.rlu.apply t e.1 e.2) (.leaving o v result)) =
            some ⟨o, v, result⟩ := by
          unfold settled
          dsimp only
          rw [State.set_pc, Function.update_self]
        refine ⟨fun none_ => ?_, fun r is => ?_⟩
        · rw [event] at none_
          cases none_
        · rw [event] at is
          obtain rfl := Option.some.inj is
          subst effect
          exact inv.leave_updates known words hpc here known'.sound holding rfl
      · refine same (settled_client (Function.update_self _ _ _) ?_)
          (newest_step known.sound known'.sound known.snap.versions right act leaving)
        rintro o v result rfl
        obtain ⟨rfl, -⟩ := request_leaving req
        obtain ⟨hpc, called⟩ := call_inSection called (.inr (.inr (.inr (.inr rfl))))
        obtain ⟨inside, -⟩ := known.inSection (t := t) (by rw [hpc]; exact .inl rfl)
        have eff : rluUnregisterThread (s.rlu.thread t) .readerUnlock = e := Option.some.inj called
        rw [← eff, rluUnregisterThread, if_pos inside.1] at leaving
        exact leaving rfl
    · obtain ⟨pc, moved, rfl⟩ := Option.map_eq_some_iff.mp hs
      exact same (settled_client (Function.update_self _ _ _) fun _ _ _ => local_notLeaving moved) rfl
  | malloc t a =>
    simp only [foresee] at hs
    split at hs
    · split_ifs at hs
      obtain rfl := Option.some.inj hs
      exact same rfl rfl
    · cases hs
  | finish t =>
    simp only [foresee, step] at hs
    split_ifs at hs
    obtain ⟨rlu, stepped, rfl⟩ := Option.map_eq_some_iff.mp hs
    simp only [ReadLogUpdate.step] at stepped
    split_ifs at stepped
    obtain ⟨e, called, rfl⟩ := Option.map_eq_some_iff.mp stepped
    have act : ActEffect cfg s.rlu (.call t .finish) t e := .inl ⟨_, rfl, called⟩
    have right : RightSlot s.rlu (.call t .finish) := by
      unfold RightSlot
      trivial
    refine same rfl (newest_step known.sound known'.sound known.snap.versions right act ?_)
    intro leaving
    cases (act.leaves leaving).1

end Step

end ReadLogUpdate.RluList
