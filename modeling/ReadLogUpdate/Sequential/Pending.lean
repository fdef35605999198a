import ReadLogUpdate.Rlu.Control
import ReadLogUpdate.Sequential.Deferral

/-!
# Pending copies

A locked node is read in its copy. What nodes hold in this sense is not changed by a lock, an unlock
of an unchanged copy or a write-back.
-/

namespace ReadLogUpdate.Sequential

open Chain

def addrOf : Ptr → Nat
  | .actual o => o
  | _ => 0

namespace RluMem

def content (m : RluMem) (o : Nat) : NodeT :=
  match m.hdr o with
  | .copy c => ((m.entryAt c).map Entry.copy).getD (m.node o)
  | _ => m.node o

def next (m : RluMem) (o : Nat) : Nat := addrOf (m.content o).pNext

def val (m : RluMem) (o : Nat) : Int := (m.content o).val

/-- The locks of the entries from the `i`th at counter `lo` up to counter `hi`, and no others. -/
structure Locks (m : RluMem) (lo i hi : Nat) : Prop where
  held : ∀ o c, m.hdr o = .copy c → ∃ ctr e, (lo < ctr ∨ lo = ctr ∧ i ≤ c.idx) ∧ ctr < hi ∧
    c.owner = uniqId ∧ c.slot = wsIndex ctr ∧ m.entryAt c = some e ∧ e.pObjActual = o
  logged : ∀ ctr j e, (lo < ctr ∨ lo = ctr ∧ i ≤ j) → ctr < hi → (m.log (wsIndex ctr))[j]? = some e →
    m.hdr e.pObjActual = .copy ⟨uniqId, wsIndex ctr, j⟩ ∧ e.threadId = uniqId
  unmarked : ∀ o, m.hdr o ≠ .ptrIdObjCopy

def Unlocked (m : RluMem) : Prop := ∀ o, m.hdr o = .null

end RluMem

/-! ### Contents -/

section Content
variable {m m' : RluMem} {o : Nat} {c : CopyAddr} {e : Entry} {lo i hi : Nat}

theorem RluMem.content_free (free : m.hdr o = .null) : m.content o = m.node o := by
  unfold RluMem.content
  rw [free]

theorem RluMem.content_held (held : m.hdr o = .copy c) (here : m.entryAt c = some e) :
    m.content o = e.copy := by
  unfold RluMem.content
  rw [held]
  simp only [here, Option.map_some, Option.getD_some]

theorem RluMem.Locks.cases (locks : m.Locks lo i hi) (o : Nat) :
    m.hdr o = .null ∨ ∃ c ctr e, m.hdr o = .copy c ∧ (lo < ctr ∨ lo = ctr ∧ i ≤ c.idx) ∧ ctr < hi ∧
      c = ⟨uniqId, wsIndex ctr, c.idx⟩ ∧ m.entryAt c = some e ∧ e.pObjActual = o ∧
      m.content o = e.copy := by
  cases held : m.hdr o with
  | null => exact .inl rfl
  | ptrIdObjCopy => exact absurd held (locks.unmarked o)
  | copy c =>
    obtain ⟨ctr, e, rest, lt, owner, slot, here, actual⟩ := locks.held o c held
    refine .inr ⟨c, ctr, e, rfl, rest, lt, ?_, here, actual, RluMem.content_held held here⟩
    rw [← owner, ← slot]

/-- Contents depend on the headers, the nodes that are free and the entries that lock. -/
theorem RluMem.content_congr (locks : m.Locks lo i hi) (hdr : m'.hdr o = m.hdr o)
    (node : m.hdr o = .null → m'.node o = m.node o)
    (log : ∀ c, m.hdr o = .copy c → m'.entryAt c = m.entryAt c) : m'.content o = m.content o := by
  rcases locks.cases o with free | ⟨c, -, e, held, -, -, -, here, -, eq⟩
  · rw [RluMem.content_free free, RluMem.content_free (hdr.trans free), node free]
  · rw [eq]
    exact RluMem.content_held (hdr.trans held) ((log c held).trans here)

theorem RluMem.next_congr (same : ∀ o, m'.content o = m.content o) : m'.next = m.next :=
  funext fun o => congrArg (fun n : NodeT => addrOf n.pNext) (same o)

theorem RluMem.val_congr (same : ∀ o, m'.content o = m.content o) : m'.val = m.val :=
  funext fun o => congrArg NodeT.val (same o)

end Content

/-! ### Write-back -/

section Writeback
variable {m : RluMem} {lo i hi : Nat}

theorem wsIndex_ne {a b : Nat} (lt : a < b) (near : b < a + rluMaxWriteSets) : wsIndex a ≠ wsIndex b :=
  fun same => lt.ne (wsIndex_inj same lt.le near)

theorem wsIndex_eq {a b : Nat} (le : a < b + rluMaxWriteSets) (le' : b < a + rluMaxWriteSets)
    (same : wsIndex a = wsIndex b) : a = b := by
  rcases Nat.le_total a b with first | last
  · exact wsIndex_inj same first le'
  · exact (wsIndex_inj same.symm last le).symm

structure RluMem.SameContent (m m' : RluMem) : Prop where
  rest : m' = { m with node := m'.node, hdr := m'.hdr }
  content : ∀ o, m'.content o = m.content o

theorem RluMem.SameContent.refl (m : RluMem) : m.SameContent m := ⟨rfl, fun _ => rfl⟩

theorem RluMem.SameContent.trans {m m' m'' : RluMem} (fst : m.SameContent m')
    (snd : m'.SameContent m'') : m.SameContent m'' := by
  refine ⟨?_, fun o => (snd.content o).trans (fst.content o)⟩
  rw [snd.rest, fst.rest]

theorem RluMem.SameContent.log {m m' : RluMem} (same : m.SameContent m') : m'.log = m.log := by
  rw [same.rest]

theorem RluMem.Locks.writebackObj {e : Entry} (locks : m.Locks lo i hi) (lt : lo < hi)
    (near : hi ≤ lo + rluMaxWriteSets) (here : (m.log (wsIndex lo))[i]? = some e) :
    ∃ m', m.writebackObj (wsIndex lo) i = some m' ∧ m.SameContent m' ∧ m'.Locks lo (i + 1) hi := by
  obtain ⟨held, id⟩ := locks.logged lo i e (.inr ⟨rfl, le_rfl⟩) lt here
  have entry : m.entryAt ⟨uniqId, wsIndex lo, i⟩ = some e := here
  refine ⟨{ m with
    node := Function.update m.node e.pObjActual e.copy
    hdr := Function.update m.hdr e.pObjActual .null }, ?_, ⟨rfl, fun o => ?_⟩, ?_, ?_, ?_⟩
  · unfold RluMem.writebackObj
    rw [here, Option.bind_some, held]
    show ((m.entryAt ⟨uniqId, wsIndex lo, i⟩).bind _ : Option RluMem) = _
    rw [entry, Option.bind_some, if_pos id]
  · by_cases eq : o = e.pObjActual
    · rw [eq, RluMem.content_held held entry]
      exact (RluMem.content_free (Function.update_self _ _ _)).trans (Function.update_self _ _ _)
    · exact RluMem.content_congr locks (Function.update_of_ne eq _ _)
        (fun _ => Function.update_of_ne eq _ _) fun _ _ => rfl
  · intro o c held'
    have ne : o ≠ e.pObjActual := by
      rintro rfl
      have none : (Function.update m.hdr e.pObjActual .null) e.pObjActual = .copy c := held'
      rw [Function.update_self] at none
      cases none
    have old : m.hdr o = .copy c := (Function.update_of_ne ne _ _).symm.trans held'
    obtain ⟨ctr, e', rest, lt', owner, slot, here', actual⟩ := locks.held o c old
    refine ⟨ctr, e', ?_, lt', owner, slot, here', actual⟩
    rcases rest with after | ⟨eq, le⟩
    · exact .inl after
    · refine .inr ⟨eq, Nat.lt_of_le_of_ne le fun same => ne ?_⟩
      have at_ : m.entryAt c = some e := by
        show (m.log c.slot)[c.idx]? = some e
        rw [slot, ← eq, ← same]
        exact here
      rw [← actual, Option.some.inj (here'.symm.trans at_)]
  · intro ctr j e' rest lt' here'
    have rest' : lo < ctr ∨ lo = ctr ∧ i ≤ j := by omega
    obtain ⟨old, id'⟩ := locks.logged ctr j e' rest' lt' here'
    refine ⟨?_, id'⟩
    have ne : e'.pObjActual ≠ e.pObjActual := by
      intro eq
      rw [eq, held] at old
      injection old with old
      injection old with _ slots idxs
      have same : lo = ctr := wsIndex_eq (by omega) (by omega) slots
      omega
    exact (Function.update_of_ne ne _ _).trans old
  · intro o
    show Function.update m.hdr e.pObjActual .null o ≠ _
    by_cases eq : o = e.pObjActual
    · rw [eq, Function.update_self]
      rintro ⟨⟩
    · rw [Function.update_of_ne eq]
      exact locks.unmarked o

theorem RluMem.Locks.writebackWriteSet (n : Nat) {m : RluMem} {i : Nat} (locks : m.Locks lo i hi)
    (lt : lo < hi) (near : hi ≤ lo + rluMaxWriteSets) (len : i + n = (m.log (wsIndex lo)).length) :
    ∃ m', RluMem.writebackWriteSet (wsIndex lo) n i m = some m' ∧ m.SameContent m' ∧
      m'.Locks (lo + 1) 0 hi := by
  induction n generalizing m i with
  | zero =>
    refine ⟨m, rfl, .refl m, ⟨fun o c held => ?_, fun ctr j e rest lt' here => ?_, locks.unmarked⟩⟩
    · obtain ⟨ctr, e, rest, lt', owner, slot, here, actual⟩ := locks.held o c held
      refine ⟨ctr, e, ?_, lt', owner, slot, here, actual⟩
      rcases rest with after | ⟨eq, le⟩
      · omega
      · have bound : c.idx < (m.log c.slot).length := (List.getElem?_eq_some_iff.mp here).1
        rw [slot, ← eq, ← len] at bound
        omega
    · exact locks.logged ctr j e (by omega) lt' here
  | succ n ih =>
    have bound : i < (m.log (wsIndex lo)).length := by omega
    obtain ⟨m₁, done, same, locks₁⟩ := locks.writebackObj lt near (List.getElem?_eq_getElem bound)
    obtain ⟨m', done', same', locks'⟩ := ih locks₁ (by rw [same.log]; omega)
    refine ⟨m', ?_, same.trans same', locks'⟩
    rw [RluMem.writebackWriteSet, done, Option.bind_some, done']

theorem RluMem.Locks.writebackWriteSets (n : Nat) {m : RluMem} {lo : Nat} (locks : m.Locks lo 0 hi)
    (len : lo + n = hi) (near : hi ≤ lo + rluMaxWriteSets) :
    ∃ m', RluMem.writebackWriteSets n lo m = some m' ∧ m.SameContent m' ∧ m'.Unlocked := by
  induction n generalizing m lo with
  | zero =>
    refine ⟨m, rfl, .refl m, fun o => ?_⟩
    rcases locks.cases o with free | ⟨c, ctr, -, -, rest, lt, -⟩
    · exact free
    · omega
  | succ n ih =>
    obtain ⟨m₁, done, same, locks₁⟩ := locks.writebackWriteSet (m.log (wsIndex lo)).length (by omega)
      near (Nat.zero_add _)
    obtain ⟨m', done', same', unlocked⟩ := ih locks₁ (by omega) (by omega)
    refine ⟨m', ?_, same.trans same', unlocked⟩
    rw [RluMem.writebackWriteSets, done, Option.bind_some, done']

theorem RluMem.resetWriteSets_eq (n ctr : Nat) (m : RluMem) :
    ∃ log, RluMem.resetWriteSets n ctr m = { m with log := log } ∧
      (∀ k, ctr ≤ k → k < ctr + n → log (wsIndex k) = []) ∧
      ∀ slot, (∀ k, ctr ≤ k → k < ctr + n → wsIndex k ≠ slot) → log slot = m.log slot := by
  induction n generalizing ctr m with
  | zero => exact ⟨m.log, rfl, fun k le lt => by omega, fun _ _ => rfl⟩
  | succ n ih =>
    obtain ⟨log, eq, reset, kept⟩ := ih (ctr + 1) (m.resetWriteSet ctr)
    have first : (m.resetWriteSet ctr).log (wsIndex ctr) = [] := Function.update_self _ _ _
    refine ⟨log, eq, fun k le lt => ?_, fun slot other => ?_⟩
    · by_cases again : ∃ k', ctr + 1 ≤ k' ∧ k' < ctr + 1 + n ∧ wsIndex k' = wsIndex k
      · obtain ⟨k', le', lt', same⟩ := again
        rw [← same]
        exact reset k' le' lt'
      · have once : k = ctr := by
          by_contra ne
          exact again ⟨k, by omega, by omega, rfl⟩
        subst once
        rw [kept _ fun k' le' lt' same => again ⟨k', le', lt', same⟩]
        exact first
    · rw [kept slot fun k le lt => other k (by omega) (by omega)]
      exact Function.update_of_ne (other ctr le_rfl (by omega)).symm _ _

theorem RluMem.freeAll_eq (os : List Nat) {m : RluMem} (unlocked : m.Unlocked) :
    ∃ used, RluMem.freeAll os m = some { m with used := used } ∧
      ∀ o, used o = if o ∈ os then false else m.used o := by
  induction os generalizing m with
  | nil => exact ⟨m.used, rfl, fun o => (if_neg (List.not_mem_nil (a := o))).symm⟩
  | cons p os ih =>
    obtain ⟨used, eq, spec⟩ := ih (m := { m with used := Function.update m.used p false }) unlocked
    refine ⟨used, ?_, fun o => ?_⟩
    · rw [RluMem.freeAll, if_pos (unlocked p), eq]
    · rw [spec o]
      by_cases later : o ∈ os
      · rw [if_pos later, if_pos (List.mem_cons_of_mem _ later)]
      · rw [if_neg later]
        by_cases eq : o = p
        · rw [if_pos (eq ▸ List.mem_cons_self), eq]
          exact Function.update_self _ _ _
        · rw [if_neg fun mem => (List.mem_cons.mp mem).elim eq later]
          exact Function.update_of_ne eq _ _

end Writeback

end ReadLogUpdate.Sequential
