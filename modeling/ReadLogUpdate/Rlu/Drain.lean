import Mathlib.Data.List.Basic
import ReadLogUpdate.Rlu.Owners

/-!
# Draining

What `rlu_thread_finish` leaves of a thread: an empty ring, no header that points into it, and
every committed copy written to its object, whatever the other threads do.
-/

namespace ReadLogUpdate

variable {ω : Type}

def Pc.writtenBack : Pc → Bool
  | .sync _ .loadSync | .sync _ .storeSync | .sync _ (.freeCheck _) | .sync _ (.free _) => true
  | _ => false

def Pc.recycled : Pc → Bool
  | .sync _ .storeMax | .sync _ .commitAdd => true
  | pc => pc.writtenBack

section Record
variable {cfg : Config} {s : State ω} {t : Nat} {th : Thread ω} {a : Act ω} {e : Effect ω}

/-- A step that stays in a sync is one of `rlu_sync_and_writeback`. -/
theorem ActEffect.sync {k : Caller} {pc : SyncPc} (act : ActEffect cfg s a t e)
    (hpc : (s.thread t).pc = .sync k pc) : e = syncStep cfg s t (s.thread t) k pc := by
  rcases act with ⟨op, -, called⟩ | ⟨-, stepped⟩
  · rw [hpc] at called
    cases called
  · rw [hpc] at stepped
    exact (Option.some.inj stepped).symm

theorem afterSync_not_writtenBack (k : Caller) : (afterSync th k).1.pc.writtenBack = false := by
  cases k with
  | commit =>
    simp only [afterSync]
    split_ifs <;> rfl
  | _ => rfl

theorem syncStep_writtenBack {k : Caller} {pc : SyncPc} (h : ThreadOk cfg t th)
    (hpc : th.pc = .sync k pc)
    (drained : th.pc.writtenBack = true → th.wsWbCounter = th.wsTailCounter)
    (past : (syncStep cfg s t th k pc).1.pc.writtenBack = true) :
    (syncStep cfg s t th k pc).1.wsWbCounter = (syncStep cfg s t th k pc).1.wsTailCounter := by
  have control := h.control
  rw [hpc] at control drained
  have leaves {p : Prop} {th' : Thread ω} (back : (afterSync th' k).1.pc.writtenBack = true) : p := by
    rw [afterSync_not_writtenBack] at back
    cases back
  cases pc with
  | commitAdd => exact control.2.1
  | loadSync =>
    have := drained rfl
    simp only [syncStep] at past ⊢
    split_ifs <;> exact this
  | storeSync => exact drained rfl
  | freeCheck i =>
    have := drained rfl
    simp only [syncStep] at past ⊢
    split at past
    · split_ifs <;> exact this
    · exact leaves past
  | free i =>
    have := drained rfl
    simp only [syncStep] at past ⊢
    split <;> exact this
  | start =>
    simp only [syncStep] at past
    split_ifs at past
    · exact leaves past
    · cases past
    · cases past
  | waitVersion n u =>
    simp only [syncStep] at past
    split at past
    · split_ifs at past <;> cases past
    · cases past
  | check ctr i =>
    simp only [syncStep] at past
    split at past
    · split_ifs at past <;> cases past
    · cases past
  | initLoop u | initThread u | waitLoop n u | waitCounter n u | entry ctr i | copy ctr i w =>
    simp only [syncStep] at past
    split_ifs at past <;> cases past
  | _ => cases past

theorem ActEffect.writtenBack (h : ThreadOk cfg t (s.thread t)) (act : ActEffect cfg s a t e)
    (drained : (s.thread t).pc.writtenBack = true →
      (s.thread t).wsWbCounter = (s.thread t).wsTailCounter)
    (past : e.1.pc.writtenBack = true) : e.1.wsWbCounter = e.1.wsTailCounter := by
  obtain ⟨k, q, hpc, late⟩ : ∃ k q, e.1.pc = .sync k q ∧ q ≠ .start := by
    cases pc : e.1.pc with
    | sync k q =>
      refine ⟨k, q, rfl, ?_⟩
      rintro rfl
      rw [pc] at past
      cases past
    | _ =>
      rw [pc] at past
      cases past
  rcases actEffect_start act hpc with start | ⟨k', q', before⟩
  · exact absurd start late
  · obtain rfl := act.sync before
    exact syncStep_writtenBack h before drained past

structure Thread.Drains (th : Thread ω) : Prop where
  back : th.pc.writtenBack = true → th.wsWbCounter = th.wsTailCounter
  again : th.pc.kind = .sync .finishAgain ∨ th.pc = .finished → th.wsWbCounter = th.wsTailCounter
  head : th.pc.kind = .sync .finishAgain ∧ th.pc.recycled = true ∨ th.pc = .finished →
    th.wsHeadCounter = th.wsWbCounter
  checkpoint : ∀ k, th.pc = .syncCheckpoint k → k ≠ .finish ∧ k ≠ .finishAgain

theorem afterSync_drains {k : Caller} {th' : Thread ω} (window : th'.window = th.window)
    (drained : k = .finish ∨ k = .finishAgain → th.wsWbCounter = th.wsTailCounter)
    (head : k = .finishAgain → th.wsHeadCounter = th.wsWbCounter) : (afterSync th' k).1.Drains := by
  obtain ⟨heads, wbs, tails, -⟩ := Thread.window_eq window
  cases k with
  | commit =>
    simp only [afterSync]
    split_ifs <;> exact ⟨by rintro ⟨⟩, (by rintro (h | h) <;> cases h),
      (by rintro (⟨h, -⟩ | h) <;> cases h), by rintro _ ⟨⟩⟩
  | finish =>
    have drained : th'.wsWbCounter = th'.wsTailCounter := by
      rw [wbs, tails]
      exact drained (.inl rfl)
    exact ⟨by rintro ⟨⟩, fun _ => drained, (by rintro (⟨-, h⟩ | h) <;> cases h),
      by rintro _ ⟨⟩⟩
  | finishAgain =>
    have drained : th'.wsWbCounter = th'.wsTailCounter := by
      rw [wbs, tails]
      exact drained (.inr rfl)
    have head : th'.wsHeadCounter = th'.wsWbCounter := by
      rw [wbs, heads]
      exact head rfl
    exact ⟨by rintro ⟨⟩, fun _ => drained, fun _ => head, by rintro _ ⟨⟩⟩
  | _ => exact ⟨by rintro ⟨⟩, (by rintro (h | h) <;> cases h),
      (by rintro (⟨h, -⟩ | h) <;> cases h), by rintro _ ⟨⟩⟩

theorem Pc.recycled_of_writtenBack {pc : Pc} (back : pc.writtenBack = true) : pc.recycled = true := by
  unfold Pc.recycled
  split
  · rfl
  · rfl
  · exact back

/-- A step to a control point before the end of the write-back. -/
theorem Thread.Drains.early {k : Caller} {pc q : SyncPc} {th' : Thread ω} (drains : th.Drains)
    (hpc : th.pc = .sync k pc) (next : th'.pc = .sync k q) (early : th'.pc.recycled = false)
    (wb : th'.wsWbCounter = th.wsWbCounter) (tail : th'.wsTailCounter = th.wsTailCounter) :
    th'.Drains := by
  refine ⟨fun back => ?_, fun again => ?_, fun head => ?_, fun k' e => ?_⟩
  · rw [Pc.recycled_of_writtenBack back] at early
    cases early
  · rw [next] at again
    rw [wb, tail]
    refine drains.again (.inl ?_)
    rw [hpc]
    rcases again with same | done
    · exact same
    · cases done
  · rcases head with ⟨-, past⟩ | done
    · rw [early] at past
      cases past
    · rw [next] at done
      cases done
  · rw [next] at e
    cases e

/-- A step between control points after the end of the write-back. -/
theorem Thread.Drains.late {k : Caller} {pc q : SyncPc} {th' : Thread ω} (drains : th.Drains)
    (hpc : th.pc = .sync k pc) (next : th'.pc = .sync k q) (past : th.pc.recycled = true)
    (window : th'.window = th.window)
    (back : th'.pc.writtenBack = true → th.wsWbCounter = th.wsTailCounter) : th'.Drains := by
  obtain ⟨head, wb, tail, -⟩ := Thread.window_eq window
  have kind : th'.pc.kind = th.pc.kind := by
    rw [next, hpc]
    rfl
  have going : th'.pc ≠ .finished := by
    rw [next]
    nofun
  refine ⟨fun b => ?_, fun again => ?_, fun h => ?_, fun k' e => ?_⟩
  · rw [wb, tail]
    exact back b
  · rw [wb, tail]
    exact drains.again (.inl (kind ▸ again.resolve_right going))
  · rw [wb, head]
    exact drains.head (.inl ⟨kind ▸ (h.resolve_right going).1, past⟩)
  · rw [next] at e
    cases e

theorem Thread.Drains.stop {th' : Thread ω} (stuck : th'.pc.stuck = true) : th'.Drains := by
  cases pc : th'.pc with
  | failed | fault =>
    refine ⟨fun h => ?_, fun h => ?_, fun h => ?_, fun k h => ?_⟩ <;> rw [pc] at h
    · cases h
    · rcases h with h | h <;> cases h
    · rcases h with ⟨h, -⟩ | h <;> cases h
    · cases h
  | _ =>
    rw [pc] at stuck
    cases stuck

theorem syncStep_drains {k : Caller} {pc : SyncPc} (h : ThreadOk cfg t th) (hpc : th.pc = .sync k pc)
    (drains : th.Drains) : (syncStep cfg s t th k pc).1.Drains := by
  have control := h.control
  rw [hpc] at control
  have kind : th.pc.kind = .sync k := by
    rw [hpc]
    rfl
  cases pc with
  | start =>
    simp only [syncStep]
    split_ifs with even empty
    · have drained : th.wsWbCounter = th.wsTailCounter :=
        Nat.le_antisymm h.wb_le_tail (empty ▸ h.head_le_wb)
      exact afterSync_drains rfl (fun _ => drained) fun _ => by rw [drained, empty]
    · exact drains.early hpc rfl rfl rfl rfl
    · exact .stop rfl
  | reset =>
    simp only [syncStep]
    rw [rluResetWriteSets_rest]
    exact drains.early hpc rfl rfl rfl rfl
  | entry ctr i =>
    simp only [syncStep]
    split_ifs
    · exact drains.early hpc rfl rfl rfl rfl
    · exact .stop rfl
    · exact drains.early hpc rfl rfl rfl rfl
    · refine ⟨by rintro ⟨⟩, fun _ => rfl, fun last => ?_, by rintro _ ⟨⟩⟩
      obtain rfl : k = .finishAgain := PcKind.sync.inj (last.resolve_right (by rintro ⟨⟩)).1
      exact control.1.2.1.trans (drains.again (.inl kind))
    · exact .stop rfl
  | storeMax => exact drains.late hpc rfl (by rw [hpc]; rfl) rfl (by rintro ⟨⟩)
  | commitAdd => exact drains.late hpc rfl (by rw [hpc]; rfl) rfl fun _ => control.2.1
  | loadSync =>
    have back := drains.back (by rw [hpc]; rfl)
    simp only [syncStep]
    split_ifs <;> exact drains.late hpc rfl (by rw [hpc]; rfl) rfl fun _ => back
  | storeSync =>
    exact drains.late hpc rfl (by rw [hpc]; rfl) rfl fun _ => drains.back (by rw [hpc]; rfl)
  | freeCheck i =>
    have back := drains.back (by rw [hpc]; rfl)
    simp only [syncStep]
    split
    · split_ifs
      · exact drains.late hpc rfl (by rw [hpc]; rfl) rfl fun _ => back
      · exact .stop rfl
    · refine afterSync_drains (rfl : _ = th.window) (fun _ => back) ?_
      rintro rfl
      exact drains.head (.inl ⟨kind, by rw [hpc]; rfl⟩)
  | free i =>
    have back := drains.back (by rw [hpc]; rfl)
    simp only [syncStep]
    split
    · exact drains.late hpc rfl (by rw [hpc]; rfl) rfl fun _ => back
    · exact .stop rfl
  | check ctr i =>
    simp only [syncStep]
    split
    · split_ifs
      · exact drains.early hpc rfl rfl rfl rfl
      · exact .stop rfl
    · exact .stop rfl
  | waitVersion n u =>
    simp only [syncStep]
    split
    · split_ifs <;> exact drains.early hpc rfl rfl rfl rfl
    · exact drains.early hpc rfl rfl rfl rfl
  | initLoop | initThread | waitLoop | waitCounter | copy =>
    simp only [syncStep]
    split_ifs <;> first | exact .stop rfl | exact drains.early hpc rfl rfl rfl rfl
  | _ => exact drains.early hpc rfl rfl rfl rfl

theorem actEffect_drains (h : ThreadOk cfg t (s.thread t)) (act : ActEffect cfg s a t e)
    (drains : (s.thread t).Drains) : e.1.Drains := by
  by_cases busy : ∃ k q, (s.thread t).pc = .sync k q
  · obtain ⟨k, q, hpc⟩ := busy
    rw [act.sync hpc]
    exact syncStep_drains h hpc drains
  have flow := actEffect_flow act
  have start {k : Caller} {q : SyncPc} (hpc : e.1.pc = .sync k q) : q = .start :=
    (actEffect_start act hpc).resolve_right fun ⟨k', q', pc⟩ => busy ⟨k', q', pc⟩
  obtain ⟨again, done, finish, finishAgain⟩ : .sync .finishAgain ∉ (s.thread t).pc.nexts ∧
      .finished ∉ (s.thread t).pc.nexts ∧ .syncCheckpoint .finish ∉ (s.thread t).pc.nexts ∧
      .syncCheckpoint .finishAgain ∉ (s.thread t).pc.nexts := by
    cases hpc : (s.thread t).pc with
    | sync k q => exact absurd ⟨k, q, hpc⟩ busy
    | syncCheckpoint k =>
      have known := drains.checkpoint k hpc
      cases k <;> simp_all [Pc.nexts, Caller.nexts]
    | readerLock q | tryLock q | abort q => cases q <;> simp [Pc.nexts]
    | release r q => cases r <;> simp [Pc.nexts]
    | readerUnlock => simp [Pc.nexts, Caller.nexts]
    | _ => simp [Pc.nexts]
  refine ⟨fun back => ?_, fun last => ?_, fun last => ?_, fun k hpc => ?_⟩
  · cases hpc : e.1.pc with
    | sync k q =>
      obtain rfl := start hpc
      rw [hpc] at back
      cases back
    | _ =>
      rw [hpc] at back
      cases back
  · rcases last with kind | pc
    · exact absurd (kind ▸ flow) again
    · rw [pc] at flow
      exact absurd flow done
  · rcases last with ⟨kind, -⟩ | pc
    · exact absurd (kind ▸ flow) again
    · rw [pc] at flow
      exact absurd flow done
  · rw [hpc] at flow
    constructor
    · rintro rfl
      exact finish flow
    · rintro rfl
      exact finishAgain flow

end Record

section Run
variable [Inhabited ω] {cfg : Config} {ok : State ω → Act ω → Prop} {s : State ω} {t : Nat}

theorem reachable_drains (right : ∀ s a, ok s a → a.thread s = t → RightSlot s a)
    (h : System.Reachable Init (step cfg) ok s) : (s.thread t).Drains := by
  refine System.Reachable.invariant_of (fun s : State ω => (s.thread t).Drains)
    (fun s h => And.intro (reachable_ring right h).1 (reachable_fresh h)) ?_
    (fun s a s' known _ drains _ hs => ?_) h
  · rintro _ ⟨obj, rfl⟩
    exact ⟨nofun, nofun, nofun, nofun⟩
  · rcases step_cases hs with ⟨-, rfl⟩ | ⟨u, e, -, act, rfl⟩
    · rw [known.2.threadInit]
      exact drains
    · rw [State.apply_thread]
      by_cases own : t = u
      · subst own
        rw [Function.update_self]
        exact actEffect_drains known.1 act drains
      · rw [Function.update_of_ne own]
        exact drains

end Run

/-! ### What a thread has done so far -/

/-- What a thread did in a run: the copies its sections committed, the words it wrote back, and the
objects it passed to `rlu_free` and released. -/
structure History (ω : Type) where
  commits : List (Nat × (Nat → ω)) := []
  stores : List (Nat × Nat × ω) := []
  frees : List Nat := []
  releases : List Nat := []

/-- The history after a step of the thread from `s` with the write `w`. -/
def History.after (h : History ω) (s : State ω) (a : Act ω) (w : Write ω) : History ω where
  commits := match w with
    | .commit objs => h.commits ++ objs
    | _ => h.commits
  stores := match w with
    | .obj o i x => h.stores ++ [(o, i, x)]
    | _ => h.stores
  frees := match a with
    | .call _ (.free p) =>
      match s.forceActual p with
      | .actual o => h.frees ++ [o]
      | _ => h.frees
    | _ => h.frees
  releases := match w with
    | .free n => h.releases ++ [n.obj]
    | _ => h.releases

/-- Runs in which thread `t` never aborts, with its history. -/
inductive Recorded [Inhabited ω] (cfg : Config) (t : Nat) :
    State ω → History ω → State ω → History ω → Prop
  | refl (s : State ω) (h : History ω) : Recorded cfg t s h s h
  | other {s s' s'' : State ω} {h h' : History ω} {a : Act ω} (run : Recorded cfg t s h s' h')
      (foreign : a = .threadInit ∨ a.thread s' ≠ t) (hs : step cfg s' a = some s'') :
      Recorded cfg t s h s'' h'
  | own {s s' : State ω} {h h' : History ω} {a : Act ω} {e : Effect ω}
      (run : Recorded cfg t s h s' h') (calm : a ≠ .call t .abort) (lt : t < s'.gCurThreads)
      (act : ActEffect cfg s' a t e) : Recorded cfg t s h (s'.apply t e.1 e.2) (h'.after s' a e.2)

/-- The nodes of the free list that the running sync has released. -/
def Pc.released : Pc → Nat
  | .sync _ (.freeCheck i) | .sync _ (.free i) => i
  | _ => 0

def wordsOf (cfg : Config) (objs : List (Nat × (Nat → ω))) : List (Nat × Nat × ω) :=
  objs.flatMap fun p => (List.range cfg.objWords).map fun w => (p.1, w, p.2 w)

/-- The copies that wait for write-back, from entry `i` of the write set at `ctr` on. -/
def Thread.objsFrom (th : Thread ω) (ctr i : Nat) : List (Nat × (Nat → ω)) :=
  if ctr < th.wsTailCounter then
    ((th.wsObjs ctr).drop i).map (fun e => (e.pObjActual, e.copy)) ++
      (List.range' (ctr + 1) (th.wsTailCounter - (ctr + 1))).flatMap fun c =>
        (th.wsObjs c).map fun e => (e.pObjActual, e.copy)
  else []

def Thread.unwritten (cfg : Config) (th : Thread ω) : List (Nat × Nat × ω) :=
  match th.pc with
  | .sync _ (.entry ctr i) => wordsOf cfg (th.objsFrom ctr i)
  | .sync _ (.copy ctr i w) =>
    ((List.range cfg.objWords).drop w).map (fun w =>
      ((th.entry ctr i).pObjActual, w, (th.entry ctr i).copy w)) ++
      wordsOf cfg (th.objsFrom ctr (i + 1))
  | .sync _ (.check ctr i) | .sync _ (.unlock ctr i) => wordsOf cfg (th.objsFrom ctr (i + 1))
  | _ => wordsOf cfg th.pendingObjs

section Words
variable {cfg : Config} {t : Nat} {th th' : Thread ω}

theorem wordsOf_append (xs ys : List (Nat × (Nat → ω))) :
    wordsOf cfg (xs ++ ys) = wordsOf cfg xs ++ wordsOf cfg ys := List.flatMap_append

theorem Thread.pendingObjs_eq (th : Thread ω) : th.pendingObjs = th.objsFrom th.wsWbCounter 0 := by
  unfold Thread.pendingObjs Thread.objsFrom
  split_ifs with lt
  · rw [show th.wsTailCounter - th.wsWbCounter =
      th.wsTailCounter - (th.wsWbCounter + 1) + 1 by omega, List.range'_succ, List.flatMap_cons]
    rfl
  · rw [show th.wsTailCounter - th.wsWbCounter = 0 by omega]
    rfl

theorem Thread.wsObjs_length (ctr : Nat) :
    (th.wsObjs ctr).length = (th.objWriteSet (wsIndex ctr)).numOfObjs := by
  rw [Thread.wsObjs, List.length_map, List.length_range]

theorem Thread.objsFrom_next {ctr i : Nat} (lt : ctr < th.wsTailCounter)
    (num : i < (th.objWriteSet (wsIndex ctr)).numOfObjs) :
    th.objsFrom ctr i = ((th.entry ctr i).pObjActual, (th.entry ctr i).copy) ::
      th.objsFrom ctr (i + 1) := by
  have drop : (th.wsObjs ctr).drop i = th.entry ctr i :: (th.wsObjs ctr).drop (i + 1) := by
    rw [List.drop_eq_getElem_cons (by rwa [Thread.wsObjs_length])]
    simp [Thread.wsObjs, Thread.entry]
  rw [Thread.objsFrom, if_pos lt, drop, Thread.objsFrom, if_pos lt]
  rfl

theorem Thread.objsFrom_end {ctr i : Nat} (lt : ctr < th.wsTailCounter)
    (num : (th.objWriteSet (wsIndex ctr)).numOfObjs ≤ i) :
    th.objsFrom ctr i = th.objsFrom (ctr + 1) 0 := by
  rw [Thread.objsFrom, if_pos lt, List.drop_eq_nil_of_le (by rwa [Thread.wsObjs_length]),
    Thread.objsFrom]
  split_ifs with more
  · rw [show th.wsTailCounter - (ctr + 1) = th.wsTailCounter - (ctr + 1 + 1) + 1 by omega,
      List.range'_succ, List.flatMap_cons]
    rfl
  · rw [show th.wsTailCounter - (ctr + 1) = 0 by omega]
    rfl

theorem Thread.objsFrom_tail (i : Nat) : th.objsFrom th.wsTailCounter i = [] :=
  if_neg (Nat.lt_irrefl _)

/-- The write sets that wait for write-back are what they were. -/
theorem Thread.pendingObjs_congr (wb : th'.wsWbCounter = th.wsWbCounter)
    (tail : th'.wsTailCounter = th.wsTailCounter) (same : ∀ ctr, th.wsWbCounter ≤ ctr →
      ctr < th.wsTailCounter → th'.objWriteSet (wsIndex ctr) = th.objWriteSet (wsIndex ctr)) :
    th'.pendingObjs = th.pendingObjs := by
  unfold Thread.pendingObjs
  rw [wb, tail]
  refine List.flatMap_congr fun ctr mem => ?_
  have := List.mem_range'_1.mp mem
  unfold Thread.wsObjs
  rw [same ctr this.1 (by omega)]

def Pc.walking : Pc → Bool
  | .sync _ (.entry _ _) | .sync _ (.copy _ _ _) | .sync _ (.check _ _) | .sync _ (.unlock _ _) => true
  | _ => false

theorem Thread.unwritten_outside (calm : th.pc.walking = false) :
    th.unwritten cfg = wordsOf cfg th.pendingObjs := by
  unfold Thread.unwritten
  split
  · rename_i pc
    rw [pc] at calm
    cases calm
  · rename_i pc
    rw [pc] at calm
    cases calm
  · rename_i pc
    rw [pc] at calm
    cases calm
  · rename_i pc
    rw [pc] at calm
    cases calm
  · rfl

end Words

/-- What the history of thread `t` says of its record, while it is not stuck. -/
structure HistoryOk (cfg : Config) (th : Thread ω) (h : History ω) : Prop where
  written : h.stores ++ th.unwritten cfg = wordsOf cfg h.commits
  freed : h.frees = h.releases ++ (th.freeNodes.drop th.pc.released).map FreeNode.obj

section Words
variable {cfg : Config} {s : State ω} {t : Nat} {th th' : Thread ω} {h : History ω} {e : Effect ω}
  {a : Act ω}

theorem syncStep_unwritten {k : Caller} {pc : SyncPc} (ok : ThreadOk cfg t th)
    (hpc : th.pc = .sync k pc) (walking : th.pc.walking = true)
    (going : (syncStep cfg s t th k pc).1.pc.stuck = false)
    (written : h.stores ++ th.unwritten cfg = wordsOf cfg h.commits) :
    (h.after s a (syncStep cfg s t th k pc).2).stores ++
      (syncStep cfg s t th k pc).1.unwritten cfg =
      wordsOf cfg (h.after s a (syncStep cfg s t th k pc).2).commits := by
  have control := ok.control
  rw [hpc] at control
  rw [Thread.unwritten, hpc] at written
  cases pc with
  | entry ctr i =>
    have written : h.stores ++ wordsOf cfg (th.objsFrom ctr i) = wordsOf cfg h.commits := written
    simp only [syncStep] at going ⊢
    split_ifs at going ⊢ with lt num marked done
    · rw [Thread.objsFrom_next lt num] at written
      exact written
    · cases going
    · rw [Thread.objsFrom_end lt (Nat.le_of_not_lt num)] at written
      exact written
    · have empty : th.objsFrom ctr i = [] := if_neg lt
      rw [empty] at written
      rw [Thread.unwritten_outside rfl, Thread.pendingObjs_eq]
      refine Eq.trans ?_ written
      exact congrArg (h.stores ++ wordsOf cfg ·) (Thread.objsFrom_tail _)
    · cases going
  | copy ctr i w =>
    have written : h.stores ++ (((List.range cfg.objWords).drop w).map (fun w =>
        ((th.entry ctr i).pObjActual, w, (th.entry ctr i).copy w)) ++
        wordsOf cfg (th.objsFrom ctr (i + 1))) = wordsOf cfg h.commits := written
    simp only [syncStep] at going ⊢
    split_ifs at going ⊢ with lt
    · rw [List.drop_eq_getElem_cons (by rwa [List.length_range]), List.getElem_range, List.map_cons] at written
      show (h.stores ++ [_]) ++ (((List.range cfg.objWords).drop (w + 1)).map _ ++ _) = _
      rw [List.append_assoc]
      exact written
    · rw [List.drop_eq_nil_of_le (by rw [List.length_range]; exact Nat.le_of_not_lt lt)] at written
      exact written
  | check ctr i =>
    simp only [syncStep] at going ⊢
    split at going
    · split_ifs at going ⊢
      · exact written
      · cases going
    · cases going
  | unlock ctr i => exact written
  | _ =>
    rw [hpc] at walking
    cases walking

theorem History.after_plain (h : History ω) (s : State ω) (a : Act ω) {w : Write ω}
    (obj : ∀ o i x, w ≠ .obj o i x) (commit : ∀ objs, w ≠ .commit objs) :
    (h.after s a w).stores = h.stores ∧ (h.after s a w).commits = h.commits := by
  cases w with
  | obj o i x => exact absurd rfl (obj o i x)
  | commit objs => exact absurd rfl (commit objs)
  | _ => exact ⟨rfl, rfl⟩

/-- A commit adds the objects of the current write set to those that wait for write-back. -/
theorem commit_pendingObjs {pc' : Pc} (le : th.wsWbCounter ≤ th.wsTailCounter) :
    Thread.pendingObjs { th with
      isWriteDetected := false
      wsTailCounter := th.wsTailCounter + 1
      wsCurId := wsIndex (th.wsTailCounter + 1)
      pc := pc' } = th.pendingObjs ++ th.currentObjs := by
  show (List.range' th.wsWbCounter (th.wsTailCounter + 1 - th.wsWbCounter)).flatMap _ = _
  rw [Nat.succ_sub le, List.range'_1_concat, List.flatMap_append, List.flatMap_singleton,
    Nat.add_sub_of_le le]
  rfl

theorem LogStep.pendingObjs {s' : State ω} (ok : ThreadOk cfg t th) (step : LogStep cfg t s s' th th')
    (calm : th.pc.walking = false) (other : th.pc ≠ .readerUnlock) :
    th'.pendingObjs = th.pendingObjs := by
  have same (window : th'.window = th.window) (log : th'.objWriteSet = th.objWriteSet) :
      th'.pendingObjs = th.pendingObjs := by
    obtain ⟨-, wb, tail, -⟩ := Thread.window_eq window
    exact Thread.pendingObjs_congr wb tail fun _ _ _ => by rw [log]
  cases step with
  | quiet objects log => exact same log.window log.log
  | write ws objects window log live actual owned strict =>
    obtain ⟨-, wb, tail, -⟩ := Thread.window_eq window
    refine Thread.pendingObjs_congr wb tail fun ctr ge lt => ?_
    rw [log, Function.update_of_ne (ok.slot_ne strict (Nat.le_trans ok.head_le_wb ge) lt)]
  | lock o pc free record => exact same (by rw [record]; rfl) (by rw [record])
  | commit pc' pc => exact absurd pc other
  | abortUnlock i pc record => exact same (by rw [record]; rfl) (by rw [record])
  | publish k pc record => exact same (by rw [record]; rfl) (by rw [record])
  | recycle k pc record =>
    subst record
    exact Thread.pendingObjs_congr rfl rfl fun ctr ge lt => ok.recycle_kept ge lt
  | finishWb k pc =>
    rw [pc] at calm
    cases calm
  | writeWord k ctr i w pc =>
    rw [pc] at calm
    cases calm
  | unlock k ctr i pc =>
    rw [pc] at calm
    cases calm
  | commitVersion k pc record => exact same (by rw [record]; rfl) (by rw [record])

theorem afterSync_not_walking (th : Thread ω) (k : Caller) : (afterSync th k).1.pc.walking = false := by
  cases k with
  | commit =>
    simp only [afterSync]
    split_ifs <;> rfl
  | _ => rfl

theorem actEffect_enters (act : ActEffect cfg s a t e) (calm : (s.thread t).pc.walking = false)
    (walking : e.1.pc.walking = true) :
    e.1.unwritten cfg = wordsOf cfg (e.1.objsFrom (s.thread t).wsWbCounter 0) ∧
      e.1.wsWbCounter = (s.thread t).wsWbCounter := by
  obtain ⟨k, q, hpc⟩ : ∃ k q, e.1.pc = .sync k q := by
    cases pc : e.1.pc with
    | sync k q => exact ⟨k, q, rfl⟩
    | _ =>
      rw [pc] at walking
      cases walking
  rcases actEffect_start act hpc with rfl | ⟨k', q', before⟩
  · rw [hpc] at walking
    cases walking
  · obtain rfl := act.sync before
    rw [before] at calm
    cases q' with
    | reset =>
      simp only [syncStep]
      rw [rluResetWriteSets_rest]
      exact ⟨rfl, rfl⟩
    | entry | copy | check | unlock => cases calm
    | start =>
      simp only [syncStep] at walking
      split_ifs at walking
      · rw [afterSync_not_walking] at walking
        cases walking
      · cases walking
      · cases walking
    | freeCheck i =>
      simp only [syncStep] at walking
      split at walking
      · split_ifs at walking <;> cases walking
      · rw [afterSync_not_walking] at walking
        cases walking
    | waitVersion n u =>
      simp only [syncStep] at walking
      split at walking
      · split_ifs at walking <;> cases walking
      · cases walking
    | free i =>
      simp only [syncStep] at walking
      split at walking <;> cases walking
    | initLoop | initThread | waitLoop | waitCounter | loadSync =>
      simp only [syncStep] at walking
      split_ifs at walking <;> cases walking
    | _ => cases walking

theorem readerUnlock_unwritten (ok : ThreadOk cfg t (s.thread t)) (act : ActEffect cfg s a t e)
    (unlock : (s.thread t).pc = .readerUnlock)
    (written : h.stores ++ wordsOf cfg (s.thread t).pendingObjs = wordsOf cfg h.commits) :
    (h.after s a e.2).stores ++ e.1.unwritten cfg = wordsOf cfg (h.after s a e.2).commits := by
  rcases act with ⟨op, -, called⟩ | ⟨-, stepped⟩
  · rw [unlock] at called
    cases called
  rw [unlock] at stepped
  obtain rfl := Option.some.inj stepped
  have committed {th' : Thread ω} (calm : th'.pc.walking = false)
      (pending : th'.pendingObjs = (s.thread t).pendingObjs ++ (s.thread t).currentObjs) :
      h.stores ++ th'.unwritten cfg = wordsOf cfg (h.commits ++ (s.thread t).currentObjs) := by
    rw [Thread.unwritten_outside calm, pending, wordsOf_append, wordsOf_append,
      ← List.append_assoc, written]
  simp only [readerUnlockStep, afterSync]
  split_ifs
  · exact committed rfl (commit_pendingObjs ok.wb_le_tail)
  · exact committed rfl (commit_pendingObjs ok.wb_le_tail)
  · exact committed rfl (commit_pendingObjs ok.wb_le_tail)
  · exact committed rfl (commit_pendingObjs ok.wb_le_tail)
  · exact written

theorem actEffect_unwritten (ok : ThreadOk cfg t (s.thread t)) (right : RightSlot s a)
    (act : ActEffect cfg s a t e) (going : e.1.pc.stuck = false)
    (written : h.stores ++ (s.thread t).unwritten cfg = wordsOf cfg h.commits) :
    (h.after s a e.2).stores ++ e.1.unwritten cfg = wordsOf cfg (h.after s a e.2).commits := by
  by_cases walking : (s.thread t).pc.walking = true
  · obtain ⟨k, q, hpc⟩ : ∃ k q, (s.thread t).pc = .sync k q := by
      cases pc : (s.thread t).pc with
      | sync k q => exact ⟨k, q, rfl⟩
      | _ =>
        rw [pc] at walking
        cases walking
    obtain rfl := act.sync hpc
    exact syncStep_unwritten ok hpc walking going written
  have calm : (s.thread t).pc.walking = false := Bool.eq_false_iff.mpr walking
  rw [Thread.unwritten_outside calm] at written
  have step := actEffect_log ok right act
  by_cases unlock : (s.thread t).pc = .readerUnlock
  · exact readerUnlock_unwritten ok act unlock written
  have pending := step.pendingObjs ok calm unlock
  have plain (special : e.2.special = true) : ∃ k, e.2 = .isSync t k := by
    rcases act.special special with e | ⟨k, hpc⟩ | ⟨k, ctr, i, w, hpc⟩
    · exact absurd e unlock
    · rw [act.sync hpc]
      exact ⟨0, rfl⟩
    · rw [hpc] at calm
      cases calm
  have obj (o i x) : e.2 ≠ .obj o i x := fun write => by
    obtain ⟨k, other⟩ := plain (by rw [write]; rfl)
    rw [write] at other
    cases other
  have commit (objs) : e.2 ≠ .commit objs := fun write => by
    obtain ⟨k, other⟩ := plain (by rw [write]; rfl)
    rw [write] at other
    cases other
  obtain ⟨stores, commits⟩ := h.after_plain s a obj commit
  rw [stores, commits, ← written]
  by_cases enters : e.1.pc.walking = true
  · obtain ⟨unwritten, wb⟩ := actEffect_enters act calm enters
    rw [unwritten, ← wb, ← Thread.pendingObjs_eq, pending]
  · rw [Thread.unwritten_outside (Bool.eq_false_iff.mpr enters), pending]

theorem History.after_releases (h : History ω) (s : State ω) (a : Act ω) {w : Write ω}
    (write : ∀ n, w ≠ .free n) : (h.after s a w).releases = h.releases := by
  cases w with
  | free n => exact absurd rfl (write n)
  | _ => rfl

theorem Thread.afterSync_sameFrees (th : Thread ω) (k : Caller) : th.SameFrees (afterSync th k) :=
  afterSync_frees k

theorem rluFree_freed {p : Ptr} (inside : (s.thread t).pc.released = 0)
    (going : (rluFree s (s.thread t) p).1.pc.stuck = false)
    (freed : h.frees = h.releases ++
      ((s.thread t).freeNodes.drop (s.thread t).pc.released).map FreeNode.obj) :
    (h.after s (.call t (.free p)) (rluFree s (s.thread t) p).2).frees =
      (h.after s (.call t (.free p)) (rluFree s (s.thread t) p).2).releases ++
      ((rluFree s (s.thread t) p).1.freeNodes.drop
        (rluFree s (s.thread t) p).1.pc.released).map FreeNode.obj := by
  rw [inside, List.drop_zero] at freed
  unfold rluFree at going ⊢
  cases forced : s.forceActual p with
  | null =>
    simp only [forced, History.after, Thread.go]
    exact freed
  | actual o =>
    simp only [forced] at going ⊢
    split_ifs at going ⊢ with odd room
    · simp only [forced, History.after, Thread.go, freed]
      show _ = _ ++ ((s.thread t).freeNodes ++ [FreeNode.mk o (s.thread t).runCounter]).map _
      rw [List.map_append, ← List.append_assoc]
      rfl
    · cases going
    · cases going
  | copy c =>
    rw [forced] at going
    cases going

theorem syncStep_freed {k : Caller} {q : SyncPc} {i : Nat}
    (pos : q = .freeCheck i ∨ q = .free i)
    (going : (syncStep cfg s t th k q).1.pc.stuck = false)
    (freed : h.frees = h.releases ++ (th.freeNodes.drop i).map FreeNode.obj) :
    (h.after s (.lib t) (syncStep cfg s t th k q).2).frees =
      (h.after s (.lib t) (syncStep cfg s t th k q).2).releases ++
      ((syncStep cfg s t th k q).1.freeNodes.drop (syncStep cfg s t th k q).1.pc.released).map
        FreeNode.obj := by
  rcases pos with rfl | rfl
  · simp only [syncStep] at going ⊢
    cases node : th.freeNodes[i]? with
    | some n =>
      simp only [node] at going ⊢
      split_ifs at going ⊢
      · exact freed
      · cases going
    | none =>
      have none : th.freeNodes.length ≤ i := List.getElem?_eq_none_iff.mp node
      rw [List.drop_eq_nil_of_le none] at freed
      have same := { th with freeNodes := [] }.afterSync_sameFrees k
      have nodes : (afterSync { th with freeNodes := [] } k).1.freeNodes = [] := same.nodes
      rw [nodes, List.drop_nil, h.after_releases s _ same.write]
      exact freed
  · simp only [syncStep] at going ⊢
    cases node : th.freeNodes[i]? with
    | some n =>
      obtain ⟨lt, rfl⟩ := List.getElem?_eq_some_iff.mp node
      rw [List.drop_eq_getElem_cons lt, List.map_cons] at freed
      simp only [History.after]
      rw [freed]
      show _ = (_ ++ [_]) ++ _
      rw [List.append_assoc]
      rfl
    | none =>
      rw [node] at going
      cases going

theorem Pc.released_eq_zero {pc : Pc} (check : ∀ k i, pc ≠ .sync k (.freeCheck i))
    (free : ∀ k i, pc ≠ .sync k (.free i)) : pc.released = 0 := by
  unfold Pc.released
  split
  · exact absurd rfl (check _ _)
  · exact absurd rfl (free _ _)
  · rfl

theorem actEffect_released (act : ActEffect cfg s a t e)
    (check : ∀ k i, (s.thread t).pc ≠ .sync k (.freeCheck i))
    (free : ∀ k i, (s.thread t).pc ≠ .sync k (.free i)) : e.1.pc.released = 0 := by
  cases pc : e.1.pc with
  | sync k q =>
    rcases actEffect_start act pc with rfl | ⟨k', q', before⟩
    · rfl
    · rw [act.sync before] at pc
      rw [before] at check free
      cases q' with
      | freeCheck i => exact absurd rfl (check k' i)
      | free i => exact absurd rfl (free k' i)
      | start =>
        simp only [syncStep] at pc
        split_ifs at pc
        · obtain rfl := afterSync_start k' pc
          rfl
        · cases pc
          rfl
        · cases pc
      | check | waitVersion =>
        simp only [syncStep] at pc
        split at pc
        · split_ifs at pc <;> cases pc <;> rfl
        · cases pc <;> rfl
      | initLoop | initThread | waitLoop | waitCounter | entry | copy | loadSync =>
        simp only [syncStep] at pc
        split_ifs at pc <;> cases pc <;> rfl
      | _ =>
        cases pc
        rfl
  | _ => rfl

theorem actEffect_historyFrees (act : ActEffect cfg s a t e) (going : e.1.pc.stuck = false)
    (freed : h.frees = h.releases ++
      ((s.thread t).freeNodes.drop (s.thread t).pc.released).map FreeNode.obj) :
    (h.after s a e.2).frees = (h.after s a e.2).releases ++
      (e.1.freeNodes.drop e.1.pc.released).map FreeNode.obj := by
  by_cases releasing : ∃ k q i, (s.thread t).pc = .sync k q ∧ (q = .freeCheck i ∨ q = .free i)
  · obtain ⟨k, q, i, hpc, pos⟩ := releasing
    have own : a = .lib t := by
      rcases act with ⟨op, -, called⟩ | ⟨own, -⟩
      · rw [hpc] at called
        cases called
      · exact own
    obtain rfl := act.sync hpc
    subst own
    refine syncStep_freed pos going ?_
    rw [hpc] at freed
    rcases pos with rfl | rfl <;> exact freed
  have check (k i) : (s.thread t).pc ≠ .sync k (.freeCheck i) := fun hpc =>
    releasing ⟨k, _, i, hpc, .inl rfl⟩
  have free (k i) : (s.thread t).pc ≠ .sync k (.free i) := fun hpc =>
    releasing ⟨k, _, i, hpc, .inr rfl⟩
  have none := Pc.released_eq_zero check free
  by_cases frees : ∃ p, a = .call t (.free p)
  · obtain ⟨p, rfl⟩ := frees
    rcases act with ⟨op, same, called⟩ | ⟨other, -⟩
    · cases same
      have inside : (s.thread t).pc = .inSection := by
        cases pc : (s.thread t).pc with
        | inSection => rfl
        | _ =>
          rw [pc] at called
          cases called
      rw [inside] at called
      obtain rfl := Option.some.inj called
      exact rluFree_freed none going freed
    · cases other
  have keep (nodes : e.1.freeNodes = (s.thread t).freeNodes) (write : ∀ n, e.2 ≠ .free n) :
      (h.after s a e.2).frees = (h.after s a e.2).releases ++
        (e.1.freeNodes.drop e.1.pc.released).map FreeNode.obj := by
    rw [actEffect_released act check free, nodes, h.after_releases s a write]
    rw [none] at freed
    rw [← freed]
    rcases act with ⟨op, own, -⟩ | ⟨own, -⟩
    · cases op with
      | free p => exact absurd ⟨p, own⟩ frees
      | _ =>
        rw [own]
        rfl
    · rw [own]
      rfl
  cases actEffect_frees act with
  | keep nodes run write => exact keep nodes write
  | register pc nodes run write => exact keep nodes write
  | leave pc next nodes run write => exact keep nodes write
  | free p o act => exact absurd ⟨p, act⟩ frees
  | release k i n act pc => exact absurd pc (free k i)
  | clear k i act pc => exact absurd pc (check k i)

end Words

/-! ### `rlu_thread_finish` -/

section Finish
variable [Inhabited ω] {cfg : Config} {s s' : State ω} {t : Nat} {h h' : History ω}

structure Steady (cfg : Config) (t : Nat) (s : State ω) (h : History ω) : Prop where
  ok : ThreadOk cfg t (s.thread t)
  pCur : PCurOk cfg (s.thread t)
  drains : (s.thread t).Drains
  locks : LocksOf t s
  owners : Owners s
  fresh : s.Fresh
  calm : (s.thread t).pc.kind ≠ .abort
  history : (s.thread t).pc.stuck = false → HistoryOk cfg (s.thread t) h

theorem Steady.rightSlot (steady : Steady cfg t s h) {a : Act ω} (own : a.thread s = t) :
    RightSlot s a := by
  cases a with
  | lib u =>
    obtain rfl : u = t := own
    intro start
    cases pc : (s.thread u).pc with
    | abort q => exact absurd (by rw [pc]; rfl) steady.calm
    | _ =>
      rw [pc] at start
      cases start
  | _ => trivial

omit [Inhabited ω] in
theorem callInSection_calm {th : Thread ω} {op : Op ω} {e : Effect ω} (never : op ≠ .abort)
    (called : callInSection cfg s t th op = some e) : e.1.pc.kind ≠ .abort := by
  cases op with
  | readerLock | checkpoint | finish => cases called
  | abort => exact absurd rfl never
  | readerUnlock =>
    obtain rfl := Option.some.inj called
    unfold rluUnregisterThread
    split_ifs <;> rintro ⟨⟩
  | deref p | tryLock p | lock p | tryWriterLock l =>
    simp only [callInSection, ← apply_ite some, Option.some.injEq] at called
    subst called
    split_ifs <;> rintro ⟨⟩
  | store c w x =>
    simp only [callInSection] at called
    split_ifs at called
    obtain rfl := Option.some.inj called
    rintro ⟨⟩
  | free p =>
    obtain rfl := Option.some.inj called
    unfold rluFree
    (repeat' split) <;> rintro ⟨⟩

omit [Inhabited ω] in
theorem actEffect_calm {a : Act ω} {e : Effect ω} (act : ActEffect cfg s a t e)
    (calm : (s.thread t).pc.kind ≠ .abort) (never : a ≠ .call t .abort) : e.1.pc.kind ≠ .abort := by
  intro aborts
  have flow := actEffect_flow act
  rw [aborts] at flow
  cases hpc : (s.thread t).pc with
  | inSection =>
    rcases act with ⟨op, rfl, called⟩ | ⟨-, stepped⟩
    · rw [hpc] at called
      exact callInSection_calm (fun e => never (by rw [e])) called aborts
    · rw [hpc] at stepped
      cases stepped
  | mustAbort =>
    rcases act with ⟨op, rfl, called⟩ | ⟨-, stepped⟩
    · rw [hpc] at called
      cases op with
      | abort => exact never rfl
      | _ => cases called
    · rw [hpc] at stepped
      cases stepped
  | abort q =>
    rw [hpc] at calm
    exact calm rfl
  | syncCheckpoint k | sync k q =>
    rw [hpc] at flow
    cases k <;> first | (simp [Pc.nexts, Caller.nexts] at flow; done) | (cases q <;> simp [Pc.nexts, Caller.nexts] at flow)
  | readerLock q | tryLock q =>
    rw [hpc] at flow
    cases q <;> simp [Pc.nexts] at flow
  | release r q =>
    rw [hpc] at flow
    cases r <;> simp [Pc.nexts] at flow
  | readerUnlock =>
    rw [hpc] at flow
    simp [Pc.nexts, Caller.nexts] at flow
  | _ =>
    rw [hpc] at flow
    simp [Pc.nexts] at flow

theorem State.Fresh.apply (fresh : s.Fresh) (lt : t < s.gCurThreads) (th : Thread ω) (w : Write ω) :
    (s.apply t th w).Fresh := by
  intro u le
  rw [State.apply_gCurThreads] at le
  rw [State.apply_thread, Function.update_of_ne (by omega)]
  exact fresh u le

theorem Steady.own {a : Act ω} {e : Effect ω} (steady : Steady cfg t s h) (never : a ≠ .call t .abort)
    (lt : t < s.gCurThreads) (act : ActEffect cfg s a t e) :
    Steady cfg t (s.apply t e.1 e.2) (h.after s a e.2) := by
  have right := steady.rightSlot act.thread_eq
  have self : (s.apply t e.1 e.2).thread t = e.1 := by rw [State.apply_thread, Function.update_self]
  have locks := ((actEffect_log steady.ok right act).lockStep steady.ok).locksOf steady.locks
    steady.ok self
  have moving : (s.thread t).pc.stuck = false := by
    refine Bool.eq_false_iff.mpr fun stuck => ?_
    have flow := actEffect_flow act
    rw [Pc.nexts_of_stuck stuck] at flow
    cases flow
  obtain ⟨written, freed⟩ := steady.history moving
  constructor
  · rw [self]
    exact actEffect_ok steady.ok right act
  · rw [self]
    exact actEffect_pCur steady.ok steady.pCur act
  · rw [self]
    exact actEffect_drains steady.ok act steady.drains
  · exact locks
  · exact (actEffect_hdr act).owners steady.owners
  · exact steady.fresh.apply lt _ _
  · rw [self]
    exact actEffect_calm act steady.calm never
  · rw [self]
    exact fun going => ⟨actEffect_unwritten steady.ok right act going written,
      actEffect_historyFrees act going freed⟩

theorem Steady.other {a : Act ω} (steady : Steady cfg t s h)
    (foreign : a = .threadInit ∨ a.thread s ≠ t) (hs : step cfg s a = some s') :
    Steady cfg t s' h := by
  have fresh := step_fresh steady.fresh hs
  rcases step_cases hs with ⟨rfl, rfl⟩ | ⟨u, e, -, act, rfl⟩
  · rw [steady.fresh.threadInit] at fresh ⊢
    exact { steady with
      fresh := fresh
      locks := ⟨steady.locks.installed, steady.locks.logged⟩
      owners := ⟨steady.owners.named, steady.owners.unmarked, steady.owners.unlocks,
        steady.owners.marking, steady.owners.unchained⟩ }
  · have ne : t ≠ u := by
      rintro rfl
      rcases foreign with rfl | other
      · rcases act with ⟨op, e, -⟩ | ⟨e, -⟩ <;> cases e
      · exact other act.thread_eq
    have self : (s.apply u e.1 e.2).thread t = s.thread t := by
      rw [State.apply_thread, Function.update_of_ne ne]
    have hdr := actEffect_hdr act
    constructor
    · rw [self]
      exact steady.ok
    · rw [self]
      exact steady.pCur
    · rw [self]
      exact steady.drains
    · exact steady.locks.others ne self (hdr.keepsOthers steady.owners)
    · exact hdr.owners steady.owners
    · exact fresh
    · rw [self]
      exact steady.calm
    · rw [self]
      exact steady.history

theorem init_steady (start : Init s) : Steady cfg t s {} := by
  have owners := init_owners start
  have locks := init_locksOf (t := t) start
  obtain ⟨obj, rfl⟩ := start
  exact ⟨ThreadOk.init cfg t, PCurOk.init, ⟨nofun, nofun, nofun, nofun⟩, locks, owners,
    fun _ _ => rfl, nofun, fun _ => ⟨rfl, rfl⟩⟩

theorem Recorded.steady (run : Recorded cfg t s h s' h') (steady : Steady cfg t s h) :
    Steady cfg t s' h' := by
  induction run with
  | refl => exact steady
  | other run foreign hs ih => exact (ih steady).other foreign hs
  | own run calm lt act ih => exact (ih steady).own calm lt act

theorem Recorded.invariant (run : Recorded cfg t s h s' h') (steady : Steady cfg t s h)
    (Inv : Thread ω → Prop) (inv : Inv (s.thread t)) (preserve : ∀ (s : State ω) a e,
      (s.thread t).Drains → ActEffect cfg s a t e → Inv (s.thread t) → Inv e.1) :
    Inv (s'.thread t) := by
  induction run with
  | refl => exact inv
  | other run foreign hs ih =>
    have before := ih steady
    have fresh := (run.steady steady).fresh
    rcases step_cases hs with ⟨rfl, rfl⟩ | ⟨u, e, -, act, rfl⟩
    · rw [fresh.threadInit]
      exact before
    · have ne : t ≠ u := by
        rintro rfl
        rcases foreign with rfl | other
        · rcases act with ⟨op, e, -⟩ | ⟨e, -⟩ <;> cases e
        · exact other act.thread_eq
      rw [State.apply_thread, Function.update_of_ne ne]
      exact before
  | own run calm lt act ih =>
    rw [State.apply_thread, Function.update_self]
    exact preserve _ _ _ (run.steady steady).drains act (ih steady)

omit [Inhabited ω] in
theorem syncStep_next {th : Thread ω} (k : Caller) (q : SyncPc) :
    (∃ q', (syncStep cfg s t th k q).1.pc = .sync k q' ∧ q' ≠ .start) ∨
    (syncStep cfg s t th k q).1.pc.stuck = true ∨
    (q = .start ∧ th.wsTailCounter = th.wsHeadCounter ∧ syncStep cfg s t th k q = afterSync th k) ∨
    ∃ i, q = .freeCheck i ∧ syncStep cfg s t th k q = afterSync { th with freeNodes := [] } k := by
  cases q with
  | start =>
    simp only [syncStep]
    split_ifs with even empty
    · exact .inr (.inr (.inl ⟨trivial, empty, rfl⟩))
    · exact .inl ⟨_, rfl, by rintro ⟨⟩⟩
    · exact .inr (.inl rfl)
  | freeCheck i =>
    simp only [syncStep]
    split
    · split_ifs
      · exact .inl ⟨_, rfl, by rintro ⟨⟩⟩
      · exact .inr (.inl rfl)
    · exact .inr (.inr (.inr ⟨i, rfl, rfl⟩))
  | entry =>
    simp only [syncStep]
    split_ifs <;> first | exact .inl ⟨_, rfl, by rintro ⟨⟩⟩ | exact .inr (.inl rfl)
  | check | free | waitVersion =>
    simp only [syncStep]
    (repeat' split) <;> first | exact .inl ⟨_, rfl, by rintro ⟨⟩⟩ | exact .inr (.inl rfl)
  | initLoop | initThread | waitLoop | waitCounter | copy | loadSync =>
    simp only [syncStep]
    split_ifs <;> first | exact .inl ⟨_, rfl, by rintro ⟨⟩⟩ | exact .inr (.inl rfl)
  | _ => exact .inl ⟨_, rfl, by rintro ⟨⟩⟩

/-- In `rlu_thread_finish`, with the free list empty or about to be emptied. -/
def Thread.Emptying (th : Thread ω) : Prop :=
  (∃ q, th.pc = .sync .finish q ∧
    (q = .start → th.freeNodes = [] ∨ th.wsTailCounter ≠ th.wsHeadCounter)) ∨
  ((∃ q, th.pc = .sync .finishAgain q) ∨ th.pc = .finished) ∧ th.freeNodes = [] ∨
  th.pc.stuck = true

omit [Inhabited ω] in
theorem actEffect_emptying {a : Act ω} {e : Effect ω} (act : ActEffect cfg s a t e)
    (emptying : (s.thread t).Emptying) : e.1.Emptying := by
  have flow := actEffect_flow act
  rcases emptying with ⟨q, hpc, due⟩ | ⟨⟨q, hpc⟩ | done, empty⟩ | stuck
  · obtain rfl := act.sync hpc
    rcases @syncStep_next _ cfg s t (s.thread t) .finish q with
      ⟨q', next, ne⟩ | stuck | ⟨rfl, same, returns⟩ | ⟨i, -, returns⟩
    · exact .inl ⟨q', next, fun e => absurd e ne⟩
    · exact .inr (.inr stuck)
    · rw [returns]
      exact .inr (.inl ⟨.inl ⟨_, rfl⟩, (due rfl).resolve_right (not_not_intro same)⟩)
    · rw [returns]
      exact .inr (.inl ⟨.inl ⟨_, rfl⟩, rfl⟩)
  · obtain rfl := act.sync hpc
    have nodes : (syncStep cfg s t (s.thread t) .finishAgain q).1.freeNodes = [] := by
      cases actEffect_frees act with
      | keep nodes | register pc nodes | leave pc next nodes | release k i n act pc mem nodes =>
        rw [nodes, empty]
      | clear k i act pc nodes => exact nodes
      | free p o act some pc =>
        rw [hpc] at pc
        cases pc
    rcases @syncStep_next _ cfg s t (s.thread t) .finishAgain q with
      ⟨q', next, -⟩ | stuck | ⟨-, -, returns⟩ | ⟨i, -, returns⟩
    · exact .inr (.inl ⟨.inl ⟨q', next⟩, nodes⟩)
    · exact .inr (.inr stuck)
    · refine .inr (.inl ⟨.inr ?_, nodes⟩)
      rw [returns]
      rfl
    · refine .inr (.inl ⟨.inr ?_, nodes⟩)
      rw [returns]
      rfl
  · rw [done] at flow
    cases flow
  · rw [Pc.nexts_of_stuck stuck] at flow
    cases flow

/-- In `rlu_thread_finish` with an empty ring: both syncs return at once. -/
def Thread.Skipping (nodes : List FreeNode) (th : Thread ω) : Prop :=
  ((th.pc = .sync .finish .start ∨ th.pc = .sync .finishAgain .start ∨ th.pc = .finished) ∧
    th.wsTailCounter = th.wsHeadCounter ∧ th.freeNodes = nodes) ∨ th.pc.stuck = true

omit [Inhabited ω] in
theorem actEffect_skipping {a : Act ω} {e : Effect ω} {nodes : List FreeNode}
    (act : ActEffect cfg s a t e) (skipping : (s.thread t).Skipping nodes) : e.1.Skipping nodes := by
  have flow := actEffect_flow act
  rcases skipping with ⟨hpc | hpc | hpc, empty, same⟩ | stuck
  · rw [act.sync hpc]
    simp only [syncStep, if_pos empty]
    split_ifs
    · exact .inl ⟨.inr (.inl rfl), empty, same⟩
    · exact .inr rfl
  · rw [act.sync hpc]
    simp only [syncStep, if_pos empty]
    split_ifs
    · exact .inl ⟨.inr (.inr rfl), empty, same⟩
    · exact .inr rfl
  · rw [hpc] at flow
    cases flow
  · rw [Pc.nexts_of_stuck stuck] at flow
    cases flow

structure DrainedOut (cfg : Config) (t : Nat) (s : State ω) (h : History ω) : Prop where
  recycled : (s.thread t).wsHeadCounter = (s.thread t).wsWbCounter
  writtenBack : (s.thread t).wsWbCounter = (s.thread t).wsTailCounter
  slots : ∀ slot, ((s.thread t).objWriteSet slot).Empty
  headers : ∀ o c, s.hdr o = .copy c → c.owner ≠ t
  stored : h.stores = wordsOf cfg h.commits
  noNodes : (s.thread t).freeNodes = []
  released : h.releases = h.frees

theorem Steady.drainedOut (steady : Steady cfg t s h) (finished : (s.thread t).pc = .finished)
    (empty : (s.thread t).freeNodes = []) : DrainedOut cfg t s h := by
  have head := steady.drains.head (.inr finished)
  have wb := steady.drains.again (.inr finished)
  obtain ⟨written, freed⟩ := steady.history (by rw [finished]; rfl)
  refine ⟨head, wb, fun slot => ?_, fun o c held mine => ?_, ?_, empty, ?_⟩
  · refine steady.ok.empty_of_closed steady.pCur (fun ctr ge lt => ?_) (fun _ => ?_) fun _ => ?_
    · omega
    · rw [finished]
      trivial
    · rw [Thread.overhangs, finished]
      rfl
  · obtain ⟨ctr, live, -⟩ := steady.locks.logged o c held mine
    have ge := steady.ok.live_ge live
    rcases live.2 with ⟨lt, -⟩ | ⟨-, -, active⟩
    · omega
    · rw [finished] at active
      exact active trivial
  · have none : (s.thread t).pendingObjs = [] := by
      rw [Thread.pendingObjs_eq, wb]
      exact Thread.objsFrom_tail 0
    rw [Thread.unwritten_outside (by rw [finished]; rfl), none] at written
    exact (List.append_nil _).symm.trans written
  · rw [empty, List.drop_nil, List.map_nil, List.append_nil] at freed
    exact freed.symm

/-- `rlu_thread_finish` drains its thread if and only if nothing is on the free list at its call
or the ring is not empty there: with an empty ring both of its syncs return at once. -/
theorem finish_drains (cfg : Config) (t : Nat) (s₀ s₁ s₂ s₃ : State ω) (h₁ h₃ : History ω)
    (start : Init s₀) (before : Recorded cfg t s₀ {} s₁ h₁) (idle : (s₁.thread t).pc = .idle)
    (called : step cfg s₁ (.call t .finish) = some s₂) (after : Recorded cfg t s₂ h₁ s₃ h₃)
    (finished : (s₃.thread t).pc = .finished) :
    DrainedOut cfg t s₃ h₃ ↔
      (s₁.thread t).freeNodes = [] ∨ (s₁.thread t).wsTailCounter ≠ (s₁.thread t).wsHeadCounter := by
  have steady := before.steady (init_steady start)
  obtain ⟨steady₂, enters⟩ : Steady cfg t s₂ h₁ ∧
      s₂.thread t = { s₁.thread t with pc := .sync .finish .start } := by
    rcases step_cases called with ⟨e, -⟩ | ⟨u, e, lt, act, rfl⟩
    · cases e
    · obtain rfl : t = u := act.thread_eq
      rcases act with ⟨op, same, called⟩ | ⟨e, -⟩
      · cases same
        have steady₂ := steady.own (a := .call t .finish) nofun lt (.inl ⟨_, rfl, called⟩)
        rw [idle] at called
        obtain rfl := Option.some.inj called
        refine ⟨steady₂, ?_⟩
        rw [State.apply_thread, Function.update_self]
        rfl
      · cases e
  have steady₃ := after.steady steady₂
  constructor
  · intro drained
    by_contra due
    obtain ⟨some, empty⟩ := not_or.mp due
    have skipping := after.invariant steady₂ (Thread.Skipping (s₁.thread t).freeNodes)
      (.inl ⟨.inl (by rw [enters]), by rw [enters]; exact not_not.mp empty, by rw [enters]⟩)
      fun _ _ _ _ => actEffect_skipping
    rcases skipping with ⟨-, -, same⟩ | stuck
    · exact some (same.symm.trans drained.noNodes)
    · rw [finished] at stuck
      cases stuck
  · intro due
    have emptying := after.invariant steady₂ Thread.Emptying
      (.inl ⟨.start, by rw [enters], fun _ => by rw [enters]; exact due⟩)
      fun _ _ _ _ => actEffect_emptying
    rcases emptying with ⟨q, pc, -⟩ | ⟨-, empty⟩ | stuck
    · rw [finished] at pc
      cases pc
    · exact steady₃.drainedOut finished empty
    · rw [finished] at stuck
      cases stuck

end Finish

/-! ### Runs of one thread -/

/-- The effect of a step of thread `t` other than an abort. -/
def ownEffect (cfg : Config) (s : State ω) (t : Nat) : Act ω → Option (Effect ω)
  | .call u op =>
    if u = t ∧ t < s.gCurThreads then
      match op with
      | .abort => none
      | op => call cfg s t (s.thread t) op (s.thread t).pc
    else none
  | .lib u =>
    if u = t ∧ t < s.gCurThreads then libStep cfg s t (s.thread t) (s.thread t).pc else none
  | .threadInit => none

def ownRun (cfg : Config) (t : Nat) : State ω × History ω → List (Act ω) → Option (State ω × History ω)
  | sh, [] => some sh
  | sh, a :: as =>
    match ownEffect cfg sh.1 t a with
    | some e => ownRun cfg t (sh.1.apply t e.1 e.2, sh.2.after sh.1 a e.2) as
    | none => none

section OwnRun
variable [Inhabited ω] {cfg : Config} {t : Nat}

omit [Inhabited ω] in
theorem ownEffect_spec {s : State ω} {a : Act ω} {e : Effect ω} (h : ownEffect cfg s t a = some e) :
    a ≠ .call t .abort ∧ t < s.gCurThreads ∧ ActEffect cfg s a t e := by
  cases a with
  | threadInit => cases h
  | call u op =>
    simp only [ownEffect] at h
    split_ifs at h with own
    obtain ⟨rfl, lt⟩ := own
    cases op with
    | abort => cases h
    | _ => exact ⟨nofun, lt, .inl ⟨_, rfl, h⟩⟩
  | lib u =>
    simp only [ownEffect] at h
    split_ifs at h with own
    obtain ⟨rfl, lt⟩ := own
    exact ⟨nofun, lt, .inr ⟨rfl, h⟩⟩

theorem Recorded.ownRun {s₀ : State ω} {h₀ : History ω} {as : List (Act ω)}
    {sh sh' : State ω × History ω} (run : Recorded cfg t s₀ h₀ sh.1 sh.2)
    (ran : ReadLogUpdate.ownRun cfg t sh as = some sh') : Recorded cfg t s₀ h₀ sh'.1 sh'.2 := by
  induction as generalizing sh with
  | nil => exact Option.some.inj ran ▸ run
  | cons a as ih =>
    simp only [ReadLogUpdate.ownRun] at ran
    cases effect : ownEffect cfg sh.1 t a with
    | none =>
      rw [effect] at ran
      cases ran
    | some e =>
      rw [effect] at ran
      obtain ⟨calm, lt, act⟩ := ownEffect_spec effect
      exact ih (run.own calm lt act) ran

def firstThread (ω : Type) [Inhabited ω] : State ω × History ω :=
  ({ State.init (fun _ _ => default) with
    gCurThreads := 1
    thread := Function.update (fun _ => Thread.init) 0 Thread.init }, {})

theorem firstThread_recorded : Recorded cfg 0 (State.init fun _ _ => (default : ω)) {}
    (firstThread ω).1 (firstThread ω).2 :=
  .other (.refl _ _) (.inl rfl) rfl

theorem Pc.eq_idle_of_kind {pc : Pc} (h : pc.kind = .idle) : pc = .idle := by
  cases pc with
  | idle => rfl
  | _ => cases h

theorem Pc.eq_finished_of_kind {pc : Pc} (h : pc.kind = .finished) : pc = .finished := by
  cases pc with
  | finished => rfl
  | _ => cases h

/-- A run of the first thread to the call of `rlu_thread_finish`, and on to its return. -/
theorem exists_finish (cfg : Config) (before after : List (Act ω))
    (good : State ω → State ω × History ω → Bool)
    (reached : ((ReadLogUpdate.ownRun cfg 0 (firstThread ω) before).any fun sh =>
      decide ((sh.1.thread 0).pc.kind = .idle) &&
      ((step cfg sh.1 (.call 0 .finish)).any fun s =>
        (ReadLogUpdate.ownRun cfg 0 (s, sh.2) after).any fun sh' =>
          decide ((sh'.1.thread 0).pc.kind = .finished) && good sh.1 sh')) = true) :
    ∃ s₁ s₂ s₃ h₁ h₃, Recorded cfg 0 (State.init fun _ _ => (default : ω)) {} s₁ h₁ ∧
      (s₁.thread 0).pc = .idle ∧ step cfg s₁ (.call 0 .finish) = some s₂ ∧
      Recorded cfg 0 s₂ h₁ s₃ h₃ ∧ (s₃.thread 0).pc = .finished ∧ good s₁ (s₃, h₃) = true := by
  simp only [Option.any_eq_true, Bool.and_eq_true, decide_eq_true_eq] at reached
  obtain ⟨⟨s₁, h₁⟩, ran, idle, s₂, called, ⟨s₃, h₃⟩, ran', finished, facts⟩ := reached
  exact ⟨s₁, s₂, s₃, h₁, h₃, firstThread_recorded.ownRun ran, Pc.eq_idle_of_kind idle, called,
    Recorded.ownRun (.refl _ _) ran', Pc.eq_finished_of_kind finished, facts⟩

end OwnRun

def freeingRun : List (Act Nat) :=
  [.lib 0, .call 0 .readerLock] ++ List.replicate 5 (.lib 0) ++ [.call 0 (.tryLock (.actual 0))] ++
  List.replicate 9 (.lib 0) ++ [.call 0 (.free (.actual 1)), .call 0 .readerUnlock] ++
  List.replicate 26 (.lib 0)

theorem finish_drains_freeing : ∃ (s : State Nat) (h : History Nat),
    DrainedOut oneWriteSet 0 s h ∧ h.releases = [1] ∧ h.commits.length = 1 := by
  obtain ⟨s₁, s₂, s₃, h₁, h₃, before, idle, called, after, finished, facts⟩ :=
    exists_finish oneWriteSet freeingRun (List.replicate 16 (.lib 0))
      (fun s₁ sh => decide ((s₁.thread 0).wsTailCounter ≠ (s₁.thread 0).wsHeadCounter) &&
        decide (sh.2.releases = [1] ∧ sh.2.commits.length = 1)) (by decide +kernel)
  simp only [Bool.and_eq_true, decide_eq_true_eq] at facts
  have start : Init (State.init fun _ _ => (default : Nat)) := ⟨_, rfl⟩
  exact ⟨s₃, h₃, (finish_drains oneWriteSet 0 _ s₁ s₂ s₃ h₁ h₃ start before idle called after
    finished).mpr (.inr facts.1), facts.2⟩

def readOnlyRun : List (Act Nat) :=
  [.lib 0, .call 0 .readerLock] ++ List.replicate 5 (.lib 0) ++
  [.call 0 (.free (.actual 0)), .call 0 .readerUnlock] ++ List.replicate 3 (.lib 0)

/-- Nothing releases the object. -/
theorem finish_leaves_nodes : ¬ ∀ (s₀ s₁ s₂ s₃ : State Nat) (h₁ h₃ : History Nat),
    Init s₀ → Recorded oneWriteSet 0 s₀ {} s₁ h₁ → (s₁.thread 0).pc = .idle →
    step oneWriteSet s₁ (.call 0 .finish) = some s₂ → Recorded oneWriteSet 0 s₂ h₁ s₃ h₃ →
    (s₃.thread 0).pc = .finished → DrainedOut oneWriteSet 0 s₃ h₃ := by
  intro claim
  obtain ⟨s₁, s₂, s₃, h₁, h₃, before, idle, called, after, finished, facts⟩ :=
    exists_finish oneWriteSet readOnlyRun (List.replicate 2 (.lib 0))
      (fun _ sh => decide (sh.2.releases ≠ sh.2.frees)) (by decide +kernel)
  have start : Init (State.init fun _ _ => (default : Nat)) := ⟨_, rfl⟩
  exact of_decide_eq_true facts (claim _ s₁ s₂ s₃ h₁ h₃ start before idle called after finished).released

end ReadLogUpdate
