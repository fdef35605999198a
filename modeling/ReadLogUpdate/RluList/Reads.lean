import ReadLogUpdate.Rlu.Drain
import ReadLogUpdate.Rlu.Names
import ReadLogUpdate.RluList.Chains

/-!
# What a section reads

A section sees the list of its version with the thread's own pending write sets made. Through the
result of an `RLU_DEREF` it reads a node of this list, from wherever the copy is.
-/

namespace ReadLogUpdate.RluList

open Harris (ListT listValMin listValMax)
open Chain

structure Known (cfg : Config) (init : Nat → Nat → Word) (s : ReadLogUpdate.State Word) : Prop where
  sound : Sound cfg s
  reading : Reading s
  snap : Snapshots cfg init s
  pins : ∀ r l, (s.thread r).sectionVersion = some l → Pinned s l
  copied : ∀ u, Copied cfg s (s.thread u)
  naming : Naming s

theorem known_of_reachable {cfg : Config} {init : Nat → Nat → Word} {s : ReadLogUpdate.State Word}
    (h : ReachableFrom cfg init (fun s a => VersionAtomic s a ∧ RightSlot s a) s) :
    Known cfg init s := by
  have orderly (s : ReadLogUpdate.State Word) (a : ReadLogUpdate.Act Word)
      (ok : VersionAtomic s a ∧ RightSlot s a) : Orderly s a := ⟨ok.2, ok.1.noOvertake⟩
  exact {
    sound := reachable_sound orderly h.reachable
    reading := reachable_reading orderly h.reachable
    snap := reachable_snapshots orderly h
    pins := reachable_pinned orderly h
    copied := reachable_copied orderly h
    naming := reachable_naming orderly h }

/-- The contents that the section of thread `t` sees. -/
def view (init : Nat → Nat → Word) (s : ReadLogUpdate.State Word) (t : Nat) : Nat → Nat → Word :=
  overlay (s.thread t).pendingObjs (at_ init s (s.thread t).localVersion)

/-- `RLU_DEREF` has returned `p` for the node `x`, before the section locked it. -/
def Denotes (th : Thread Word) (p : Ptr) (x : Nat) : Prop :=
  ∃ d ∈ th.derefs, d.arg = .actual x ∧ d.result = p ∧ d.own = false

variable {cfg : Config} {init : Nat → Nat → Word} {list : ListT} {used : Nat → Bool}
  {s : ReadLogUpdate.State Word} {t : Nat}

theorem Denotes.mono {th th' : Thread Word} {p : Ptr} {x : Nat} (denotes : Denotes th p x)
    (sub : ∀ d ∈ th.derefs, d ∈ th'.derefs) : Denotes th' p x := by
  obtain ⟨d, mem, rest⟩ := denotes
  exact ⟨d, sub d mem, rest⟩

abbrev InSection (s : ReadLogUpdate.State Word) (t : Nat) : Prop :=
  (s.thread t).sectionVersion = some (s.thread t).localVersion

theorem Known.inSection (known : Known cfg init s) (kind : (s.thread t).pc.kind = .inSection ∨
    (s.thread t).pc.kind = .deref ∨ (s.thread t).pc.kind = .tryLock ∨
    (s.thread t).pc.kind = .mustAbort) : (s.thread t).Inside cfg ∧ InSection s t := by
  have control := (known.sound.wf.threads t).control
  have inside : (s.thread t).Inside cfg := by
    cases hpc : (s.thread t).pc with
    | inSection | mustAbort | deref q =>
      rw [hpc] at control
      exact control
    | tryLock q =>
      rw [hpc] at control
      exact control.1
    | _ =>
      rw [hpc] at kind
      simp [Pc.kind] at kind
  have other : (s.thread t).pc.kind ≠ .readerLock := by
    intro eq
    rw [eq] at kind
    simp at kind
  exact ⟨inside, by rw [InSection, Thread.sectionVersion_of_kind other, if_pos inside.1]⟩

theorem Known.idle (known : Known cfg init s) (here : InSection s t) :
    (s.thread t).flight = none := by
  have h := known.sound.wf.threads t
  exact (h.control.inside (h.odd_of_version here)).1.2.2.1

theorem Known.way (known : Known cfg init s) (listed : Listed init list used s)
    (here : InSection s t) : OnTheWay init list s (at_ init s (s.thread t).localVersion)
      (pending t (s.thread t)) (s.thread t).pendingObjs :=
  pending_onTheWay (known.idle here) (listed.beside t _ here).own

theorem Known.view_isList (known : Known cfg init s) (listed : Listed init list used s)
    (here : InSection s t) : IsList init list used (view init s t) :=
  (known.way listed here).isList listed known.sound (listed.isList _)

/-- What it sees of a node it has not pending is what the version sees. -/
theorem view_of_not_pending {x : Nat} (free : ¬ (s.thread t).Pending x) :
    view init s t x = at_ init s (s.thread t).localVersion x := by
  refine overlay_of_forall_ne fun e mem same => free ?_
  obtain ⟨ctr, i, ge, lt, num, rfl⟩ := Thread.mem_pendingObjs.mp mem
  exact ⟨ctr, i, ge, lt, num, same⟩

/-- What it sees of a node it has pending is the copy. -/
theorem Known.view_of_pending (known : Known cfg init s) (here : InSection s t) {ctr i : Nat}
    (ge : (s.thread t).wsWbCounter ≤ ctr) (lt : ctr < (s.thread t).wsTailCounter)
    (num : i < ((s.thread t).objWriteSet (wsIndex ctr)).numOfObjs) :
    view init s t ((s.thread t).entry ctr i).pObjActual = ((s.thread t).entry ctr i).copy := by
  refine overlay_of_mem (Thread.mem_pendingObjs.mpr ⟨ctr, i, ge, lt, num, rfl⟩) fun e mem same => ?_
  obtain ⟨ctr', i', ge', lt', num', rfl⟩ := Thread.mem_pendingObjs.mp mem
  have idle := known.idle here
  obtain ⟨-, rfl, rfl⟩ := known.sound.entry_inj ⟨idle, ge', .inl lt'⟩ num' ⟨idle, ge, .inl lt⟩ num same
  rfl

/-- Through the result of an `RLU_DEREF` a section reads what it sees. -/
theorem Known.load (known : Known cfg init s) (here : InSection s t) {p : Ptr} {x w : Nat}
    (denotes : Denotes (s.thread t) p x) (lt : w < cfg.objWords) :
    s.load p w = some (view init s t x w) := by
  obtain ⟨d, mem, arg, rfl, notOwn⟩ := denotes
  have isolated := (known.snap.shown t _ here d mem x arg).isolated known.sound
    (known.snap.views t _ here) here
  by_cases pending : (s.thread t).Pending x
  · obtain ⟨ctr, i, ge, lt', num, rfl, result⟩ := isolated.committed notOwn pending
    rw [result, known.view_of_pending here ge lt' num]
    rfl
  · rw [view_of_not_pending pending]
    exact isolated.published notOwn pending w lt

/-- The result of an `RLU_DEREF` is a copy of the node or the node. -/
theorem Known.denotes_cases (known : Known cfg init s) (here : InSection s t) {p : Ptr} {x : Nat}
    (denotes : Denotes (s.thread t) p x) : p = .actual x ∨ ∃ c, p = .copy c ∧ Names s c x := by
  obtain ⟨d, mem, arg, rfl, notOwn⟩ := denotes
  cases known.snap.shown t _ here d mem x arg with
  | own c result | stolen c result =>
    exact .inr ⟨c, result, known.naming.derefs t _ here d mem x c arg result⟩
  | inPlace result => exact .inl result

theorem Known.forceActual (known : Known cfg init s) (here : InSection s t) {p : Ptr} {x : Nat}
    (denotes : Denotes (s.thread t) p x) : s.forceActual p = .actual x := by
  rcases known.denotes_cases here denotes with rfl | ⟨c, rfl, mark, actual⟩
  · rfl
  · unfold State.forceActual
    dsimp only
    rw [if_pos mark, actual]

/-! ### What stays while a section runs -/

section Step
variable {a : ReadLogUpdate.Act Word} {u : Nat} {e : Effect Word}

theorem Known.view_other (known : Known cfg init s) (right : RightSlot s a)
    (act : ActEffect cfg s a u e) (ne : t ≠ u) : view init (s.apply u e.1 e.2) t = view init s t := by
  have log := actEffect_log (known.sound.wf.threads u) right act
  have same : (s.apply u e.1 e.2).thread t = s.thread t := by
    rw [State.apply_thread, Function.update_of_ne ne]
  unfold view at_
  rw [same, log.valueAt_eq (known.sound.grace.acquires u) init (known.sound.grace.local_le t)]

theorem Known.view_own (known : Known cfg init s) (right : RightSlot s a)
    (act : ActEffect cfg s a t e) (here : InSection s t) (local_ : e.1.localVersion =
      (s.thread t).localVersion) : view init (s.apply t e.1 e.2) t = view init s t := by
  have h := known.sound.wf.threads t
  have log := actEffect_log h right act
  have same : (s.apply t e.1 e.2).thread t = e.1 := by
    rw [State.apply_thread, Function.update_self]
  obtain ⟨window, pending, -⟩ := log.inSection h (h.odd_of_version here)
  obtain ⟨-, wb, tail, -⟩ := Thread.window_eq window
  have objs : e.1.pendingObjs = (s.thread t).pendingObjs :=
    Thread.pendingObjs_congr wb tail fun ctr ge lt =>
      pending ctr (Nat.le_trans h.head_le_wb ge) lt
  unfold view at_
  rw [same, local_, objs,
    log.valueAt_eq (known.sound.grace.acquires t) init (known.sound.grace.local_le t)]

end Step

end ReadLogUpdate.RluList
