import ReadLogUpdate.Rlu.Owners

/-!
# The writer lock table

`g_rlu_writer_locks` holds exactly the locks that sections have acquired and not yet released,
also where `rlu_unlock_objs` has gone to another write set.
-/

namespace ReadLogUpdate

variable {ω : Type}

/-! ### The record of a thread, wherever its abort has gone -/

/-- The unlocking of an abort and its failures are taken for passed. -/
def Pc.settled : Pc → Pc
  | .abort (.unlock _ _) | .abort (.unlockStore _ _) | .failed _ (.abort _) | .fault (.abort _) =>
    .release .abortWrite (.check 0)
  | pc => pc

/-- The record of a thread is in order once the unlocking of its abort is over. -/
def SettledOk (cfg : Config) (t : Nat) (th : Thread ω) : Prop :=
  ThreadOk cfg t { th with pc := th.pc.settled }

section Settled
variable {cfg : Config} {t : Nat} {th : Thread ω} {s : State ω}

theorem ThreadOk.cutAbort {th' : Thread ω} (h : ThreadOk cfg t th) (window : th'.window = th.window)
    (log : th'.objWriteSet = th.objWriteSet) (run : th'.runCounter = th.runCounter)
    (pos : th.pc.wbPos = fun wb => (wb, 0)) (hpc : th'.pc = .release .abortWrite (.check 0))
    (outside : th'.Outside cfg) : ThreadOk cfg t th' := by
  obtain ⟨-, wb, tail, -⟩ := Thread.window_eq window
  refine h.advance window log (fun ctr i _ => (Thread.entryOk_congr tail log run ctr i).mpr) ?_ ?_ ?_ ?_
  · rw [pos, hpc]
    exact Nat.le_refl _
  · rw [hpc]
    exact False.elim
  · rintro ctr i ⟨past, ⟨lt, num⟩ | ⟨-, -, active⟩⟩
    · unfold Thread.Live
      rw [pos]
      rw [hpc, wb] at past
      rw [tail] at lt
      rw [log] at num
      exact ⟨past, .inl ⟨lt, num⟩⟩
    · rw [hpc] at active
      exact absurd trivial active
  · rw [hpc]
    exact outside

theorem Control.outside_of_abort {pc : AbortPc} (h : Control cfg t th (.abort pc)) :
    th.Outside cfg := by
  cases pc with
  | start => exact h.1
  | unlock => exact h.1
  | unlockStore => exact h.1

theorem ThreadOk.at_pc {q : Pc} (h : ThreadOk cfg t th) (same : q = th.pc) :
    ThreadOk cfg t { th with pc := q } := by
  subst same
  exact h

theorem ThreadOk.settle (h : ThreadOk cfg t th) : SettledOk cfg t th := by
  have control := h.control
  unfold SettledOk
  cases hpc : th.pc with
  | abort pc =>
    rw [hpc] at control
    cases pc with
    | start => exact h.at_pc hpc.symm
    | unlock | unlockStore =>
      exact h.cutAbort rfl rfl rfl (by rw [hpc]; rfl) rfl control.outside_of_abort
  | failed line pc =>
    rw [hpc] at control
    cases pc with
    | abort pc => exact h.cutAbort rfl rfl rfl (by rw [hpc]; rfl) rfl control.2.2.outside_of_abort
    | _ => exact h.at_pc hpc.symm
  | fault pc =>
    rw [hpc] at control
    cases pc with
    | abort pc => exact h.cutAbort rfl rfl rfl (by rw [hpc]; rfl) rfl control.2.outside_of_abort
    | _ => exact h.at_pc hpc.symm
  | _ => exact h.at_pc hpc.symm

theorem SettledOk.ok {pc : Pc} (h : SettledOk cfg t th) (hpc : th.pc = pc) (same : pc.settled = pc) :
    ThreadOk cfg t th := by
  unfold SettledOk at h
  rwa [hpc, same, ← hpc] at h

end Settled

/-! ### What a record says the thread holds -/

/-- The locks a thread has yet to release by its control point: `slots` are the `writer_locks` of
its write sets, `cur` is `ws_cur_id` and `prev` the slot of the last committed write set. -/
def Pc.holding (slots : Nat → List Nat) (cur prev : Nat) : Pc → List Nat
  | .inSection | .mustAbort | .deref _ | .tryLock _ | .writerLock _ | .readerUnlock | .abort _ =>
    slots cur
  | .sync .commit _ => slots prev
  | .release .commit (.check i) | .release .commit (.store i) => (slots prev).drop i
  | .release _ (.check i) | .release _ (.store i) => (slots cur).drop i
  | .failed _ pc | .fault pc => pc.holding slots cur prev
  | _ => []

def Thread.slotLocks (th : Thread ω) (slot : Nat) : List Nat := (th.objWriteSet slot).writerLocks

def Thread.holding (th : Thread ω) : List Nat :=
  th.pc.holding th.slotLocks th.wsCurId (wsIndex (th.wsTailCounter - 1))

/-- What the next step of a thread with record `th` does to the locks `held` that it has acquired in
its section and not yet released: a compare-and-swap of `rlu_try_writer_lock` that succeeds adds
one, a store of `rlu_release_writer_lock` drops one, and a new section starts with none. -/
def heldAfter (s : State ω) (th : Thread ω) (held : List Nat) : List Nat :=
  match th.pc with
  | .writerLock (.cas l) => if s.gWriterLocks l = 0 then held ++ [l] else held
  | .release r (.store i) =>
    match (th.objWriteSet (releaserSlot th r)).writerLocks[i]? with
    | some l => held.erase l
    | none => held
  | .readerLock .register => []
  | _ => held

/-- The locks that every thread has acquired in its section and not yet released, after an action. -/
def heldNext (s : State ω) (a : Act ω) (held : Nat → List Nat) : Nat → List Nat :=
  match a with
  | .lib t => Function.update held t (heldAfter s (s.thread t) (held t))
  | _ => held

def Thread.owed (th : Thread ω) : Caller → List Nat
  | .commit => th.slotLocks (wsIndex (th.wsTailCounter - 1))
  | _ => []

def Pc.owns : Pc → Bool
  | .inSection | .mustAbort | .deref _ | .tryLock _ | .writerLock _ | .readerUnlock | .abort _ => true
  | _ => false

section Holding
variable {cfg : Config} {t : Nat} {th th' : Thread ω} {s : State ω}

theorem Thread.cur_setWriteSet (ws : WriteSet ω) : (th.setWriteSet th.wsCurId ws).cur = ws :=
  Function.update_self _ _ _

end Holding

/-! ### The table -/

def Write.table : Write ω → Bool
  | .writerLock _ _ => true
  | _ => false

section Table
variable {cfg : Config} {t : Nat} {th : Thread ω} {s : State ω} {e : Effect ω}

theorem State.apply_gWriterLocks {w : Write ω} (plain : w.table = false) :
    (s.apply t th w).gWriterLocks = s.gWriterLocks := by
  cases w with
  | writerLock => cases plain
  | _ => rfl

end Table

structure Table (s : State ω) (held : Nat → List Nat) : Prop where
  holding : ∀ t, held t = (s.thread t).holding
  nodup : ∀ t, (held t).Nodup
  owner : ∀ l t, s.gWriterLocks l = lockId t ↔ l ∈ held t
  quiet : ∀ t line q, (s.thread t).pc = .failed line q → line ∉ [209, 215, 232]

section Step
variable {cfg : Config} {t : Nat} {s : State ω} {e : Effect ω} {held : Nat → List Nat}

theorem Table.next {held' : Nat → List Nat} (table : Table s held)
    (others : ∀ u, u ≠ t → held' u = held u) (holding : held' t = e.1.holding) (nodup : (held' t).Nodup)
    (owner : ∀ l u, (s.apply t e.1 e.2).gWriterLocks l = lockId u ↔ l ∈ held' u)
    (quiet : ∀ line q, e.1.pc = .failed line q → line ∉ [209, 215, 232]) :
    Table (s.apply t e.1 e.2) held' := by
  refine ⟨fun u => ?_, fun u => ?_, owner, fun u line q => ?_⟩
  · rw [State.apply_thread]
    by_cases eq : u = t
    · rw [eq, Function.update_self]
      exact holding
    · rw [Function.update_of_ne eq, others u eq]
      exact table.holding u
  · by_cases eq : u = t
    · rw [eq]
      exact nodup
    · rw [others u eq]
      exact table.nodup u
  · rw [State.apply_thread]
    by_cases eq : u = t
    · rw [eq, Function.update_self]
      exact quiet line q
    · rw [Function.update_of_ne eq]
      exact table.quiet u line q

/-- A step that leaves the table and what its thread holds. -/
theorem Table.keep (table : Table s held) (plain : e.2.table = false)
    (same : e.1.holding = (s.thread t).holding)
    (quiet : ∀ line q, e.1.pc = .failed line q → line ∉ [209, 215, 232]) :
    Table (s.apply t e.1 e.2) held := by
  refine table.next (fun _ _ => rfl) ((table.holding t).trans same.symm) (table.nodup t) ?_ quiet
  rw [State.apply_gWriterLocks plain]
  exact table.owner

theorem lockId_inj {t u : Nat} (eq : lockId t = lockId u) : t = u := Nat.succ.inj eq

theorem lockId_ne_zero : lockId t ≠ 0 := Nat.succ_ne_zero t

theorem Table.release (table : Table s held) {l : Nat} (mem : l ∈ held t)
    (write : e.2 = .writerLock l 0) (holding : e.1.holding = (held t).erase l)
    (quiet : ∀ line q, e.1.pc = .failed line q → line ∉ [209, 215, 232]) :
    Table (s.apply t e.1 e.2) (Function.update held t ((held t).erase l)) := by
  have owned := (table.owner l t).mpr mem
  refine table.next (fun u ne => Function.update_of_ne ne _ _) ?_ ?_ (fun k u => ?_) quiet
  · rw [Function.update_self, holding]
  · rw [Function.update_self]
    exact (table.nodup t).erase l
  have locks : (s.apply t e.1 e.2).gWriterLocks = Function.update s.gWriterLocks l 0 := by
    rw [write]
    rfl
  rw [locks]
  by_cases eq : k = l
  · subst eq
    rw [Function.update_self]
    refine ⟨fun same => absurd same lockId_ne_zero.symm, fun held => ?_⟩
    by_cases eq : u = t
    · rw [eq, Function.update_self] at held
      exact absurd held (table.nodup t).not_mem_erase
    · rw [Function.update_of_ne eq, ← table.owner k u, owned] at held
      exact absurd (lockId_inj held).symm eq
  · rw [Function.update_of_ne eq, table.owner k u]
    by_cases eq' : u = t
    · rw [eq', Function.update_self, List.mem_erase_of_ne eq]
    · rw [Function.update_of_ne eq']

end Step

/-! ### Runs -/

/-- A state with the locks that every thread has acquired in its section and not yet released. -/
structure LockState (ω : Type) where
  state : State ω
  held : Nat → List Nat

inductive LockAct (ω : Type) where
  | act (a : Act ω)
  /-- the client of thread `t` goes on in its section after a failed lock -/
  | goOn (t : Nat)

def State.goOn (s : State ω) (t : Nat) : State ω :=
  { s with thread := Function.update s.thread t { s.thread t with pc := .inSection } }

def lockStep [Inhabited ω] (cfg : Config) (s : LockState ω) : LockAct ω → Option (LockState ω)
  | .act a => (step cfg s.state a).map fun s' => ⟨s', heldNext s.state a s.held⟩
  | .goOn t =>
    match (s.state.thread t).pc with
    | .mustAbort => some { s with state := s.state.goOn t }
    | _ => none

section Run
variable [Inhabited ω] {cfg : Config} {s s' : LockState ω}

end Run

def coarseGrained : Config :=
  { oneWriteSet with
    type := .coarseGrained
    coarse_one := fun _ => rfl }

end ReadLogUpdate
