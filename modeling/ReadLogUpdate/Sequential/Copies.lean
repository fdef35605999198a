import ReadLogUpdate.Sequential.Sync

/-!
# Copies of a section

What a running section does to the log and the contents: it locks a free node, stores a pointer in a
copy or in a new node, and unlocks the nodes again when it aborts.
-/

namespace ReadLogUpdate.Sequential

open Chain

/-- The pointer that `RLU_DEREF` yields for a node. -/
def RluMem.view (m : RluMem) (o : Nat) : Ptr :=
  match m.hdr o with
  | .copy c => .copy c
  | _ => .actual o

section View
variable {m : RluMem} {s : RluState} {o : Nat} {c : CopyAddr} {lo i hi : Nat}

theorem RluMem.view_free (free : m.hdr o = .null) : m.view o = .actual o := by
  unfold RluMem.view
  rw [free]

theorem RluMem.view_held (held : m.hdr o = .copy c) : m.view o = .copy c := by
  unfold RluMem.view
  rw [held]

theorem RluMem.Locks.entry (locks : m.Locks lo i hi) (held : m.hdr o = .copy c) : ∃ ctr e,
    lo ≤ ctr ∧ ctr < hi ∧ c = ⟨uniqId, wsIndex ctr, c.idx⟩ ∧ m.entryAt c = some e ∧
      e.pObjActual = o ∧ e.threadId = uniqId ∧ m.content o = e.copy := by
  obtain ⟨ctr, e, rest, lt, owner, slot, here, actual⟩ := locks.held o c held
  have at_ : (m.log (wsIndex ctr))[c.idx]? = some e := slot ▸ here
  refine ⟨ctr, e, by omega, lt, ?_, here, actual, (locks.logged ctr c.idx e rest lt at_).2,
    RluMem.content_held held here⟩
  rw [← owner, ← slot]

theorem RluMem.Locks.load_view (locks : m.Locks lo i hi) (o : Nat) :
    m.load (m.view o) = some (m.content o) := by
  rcases locks.cases o with free | ⟨c, ctr, e, held, -, -, -, here, -, eq⟩
  · rw [RluMem.view_free free, RluMem.content_free free]
    rfl
  · rw [RluMem.view_held held, eq]
    show (m.entryAt c).map Entry.copy = _
    rw [here]
    rfl

theorem RluMem.Locks.forceActual_held (locks : m.Locks lo i hi) (held : m.hdr o = .copy c) :
    m.forceActual (.copy c) = some (.actual o) := by
  obtain ⟨-, e, -, -, -, here, actual, -⟩ := locks.entry held
  show (m.entryAt c).map (fun e => Ptr.actual e.pObjActual) = _
  rw [here, ← actual]
  rfl

theorem RluMem.Locks.forceActual_view (locks : m.Locks lo i hi) (o : Nat) :
    m.forceActual (m.view o) = some (.actual o) := by
  rcases locks.cases o with free | ⟨c, ctr, e, held, -⟩
  · rw [RluMem.view_free free]
    rfl
  · rw [RluMem.view_held held]
    exact locks.forceActual_held held

theorem RluMem.Locks.lockTarget_view (locks : m.Locks lo i hi) (o : Nat) :
    m.lockTarget (m.view o) = some o := by
  rcases locks.cases o with free | ⟨c, ctr, e, held, -, -, -, here, actual, -⟩
  · rw [RluMem.view_free free]
    rfl
  · rw [RluMem.view_held held]
    show (m.entryAt c).map Entry.pObjActual = _
    rw [here, ← actual]
    rfl

theorem RluMem.Locks.deref_view (locks : s.mem.Locks lo i hi)
    (reads : s.isCheckLocks = false → s.mem.Unlocked) (o : Nat) :
    s.deref (.actual o) = some (s.mem.view o) := by
  unfold RluState.deref
  by_cases shortcut : s.isCheckLocks = false
  · rw [if_pos shortcut, RluMem.view_free (reads shortcut o)]
  · rw [if_neg shortcut]
    rcases locks.cases o with free | ⟨c, ctr, e, held, -⟩
    · rw [if_pos ⟨by rintro ⟨⟩, free⟩, RluMem.view_free free]
    · have locked : s.mem.getCopy (.actual o) = .copy c := held
      obtain ⟨-, e, -, -, -, here, -, id, -⟩ := locks.entry held
      rw [if_neg (by rw [locked]; rintro ⟨-, ⟨⟩⟩), RluMem.view_held held]
      unfold RluState.derefSlowPath
      rw [locked]
      show ((s.mem.entryAt c).bind _ : Option Ptr) = _
      rw [here, Option.bind_some, if_pos id]

end View

/-! ### Locking -/

section Lock
variable {M : Nat} {m : RluMem} {o rc k : Nat} {c : CopyAddr} {e : Entry}

theorem Logged.opens (two : 2 * M ≤ rluMaxWriteSets) (logged : Logged M m 0 rc)
    (room : m.wsTailCounter < m.wsWbCounter + M) :
    Logged M m 1 (rc + 1) ∧ m.log m.wsCurId = [] := by
  have head := logged.head_le_wb
  have tail := logged.wb_le_tail
  have wb := logged.wb_le
  have clean : m.log (wsIndex m.wsTailCounter) = [] :=
    logged.empty _ fun ctr le lt => wsIndex_ne (by omega) (by omega)
  have old {ctr j : Nat} {e : Entry} (lt : ctr < m.wsTailCounter + 1)
      (here : (m.log (wsIndex ctr))[j]? = some e) : ctr < m.wsTailCounter + 0 := by
    refine Nat.lt_of_le_of_ne (Nat.le_of_lt_succ lt) ?_
    rintro rfl
    rw [Nat.add_zero, clean] at here
    cases here
  refine ⟨{ logged with
    locks := ⟨fun o c held => ?_, fun ctr j e rest lt here => ?_, logged.locks.unmarked⟩
    runs := fun ctr j e le lt here => ?_
    empty := fun slot other => logged.empty slot fun ctr le lt => other ctr le (by omega) }, ?_⟩
  · obtain ⟨ctr, e, rest, lt, more⟩ := logged.locks.held o c held
    exact ⟨ctr, e, rest, by omega, more⟩
  · exact logged.locks.logged ctr j e rest (old lt here) here
  · obtain ⟨le', lt'⟩ := logged.runs ctr j e le (old lt here) here
    exact ⟨by omega, fun before => (lt' before).trans (Nat.lt_succ_self rc)⟩
  · rw [logged.curId]
    exact clean

theorem RluMem.addCopy_entry (here : m.entryAt c = some e) : (m.addCopy o rc).entryAt c = some e := by
  have at_ : (m.log c.slot)[c.idx]? = some e := here
  show (Function.update m.log m.wsCurId _ c.slot)[c.idx]? = some e
  by_cases cur : c.slot = m.wsCurId
  · rw [cur, Function.update_self]
    rw [cur] at at_
    rw [List.getElem?_append_left (List.getElem?_eq_some_iff.mp at_).1]
    exact at_
  · rw [Function.update_of_ne cur]
    exact at_

theorem RluMem.addCopy_next :
    (m.addCopy o rc).entryAt m.nextCopy = some ⟨o, rc, uniqId, m.node o⟩ := by
  show (Function.update m.log m.wsCurId _ m.wsCurId)[(m.log m.wsCurId).length]? = _
  rw [Function.update_self]
  exact List.getElem?_concat_length

/-- The entries of the write sets that wait are old ones, or the one that was added. -/
theorem Logged.addCopy_log (two : 2 * M ≤ rluMaxWriteSets) (logged : Logged M m 1 rc)
    (room : m.wsTailCounter < m.wsWbCounter + M) {ctr j : Nat} (le : m.wsWbCounter ≤ ctr)
    (lt : ctr < m.wsTailCounter + 1) (here : ((m.addCopy o rc).log (wsIndex ctr))[j]? = some e) :
    (m.log (wsIndex ctr))[j]? = some e ∨
      ctr = m.wsTailCounter ∧ e = ⟨o, rc, uniqId, m.node o⟩ ∧
        (⟨uniqId, wsIndex ctr, j⟩ : CopyAddr) = m.nextCopy := by
  have at_ : (Function.update m.log m.wsCurId (m.log m.wsCurId ++ [⟨o, rc, uniqId, m.node o⟩])
    (wsIndex ctr))[j]? = some e := here
  by_cases cur : wsIndex ctr = m.wsCurId
  · have last : ctr = m.wsTailCounter := by
      rw [logged.curId] at cur
      exact wsIndex_eq (by omega) (by omega) cur
    rw [cur, Function.update_self] at at_
    rcases Nat.lt_or_ge j (m.log m.wsCurId).length with lt' | ge
    · rw [List.getElem?_append_left lt'] at at_
      exact .inl (cur ▸ at_)
    · have bound := (List.getElem?_eq_some_iff.mp at_).1
      rw [List.length_append, List.length_singleton] at bound
      obtain rfl : j = (m.log m.wsCurId).length := by omega
      rw [List.getElem?_concat_length] at at_
      refine .inr ⟨last, (Option.some.inj at_).symm, ?_⟩
      rw [cur]
      rfl
  · rw [Function.update_of_ne cur] at at_
    exact .inl at_

theorem Logged.addCopy (two : 2 * M ≤ rluMaxWriteSets) (logged : Logged M m 1 rc)
    (room : m.wsTailCounter < m.wsWbCounter + M) (free : m.hdr o = .null) (used : m.used o = true) :
    Logged M (m.addCopy o rc) 1 rc := by
  have hdrO : (m.addCopy o rc).hdr o = .copy m.nextCopy := Function.update_self _ _ _
  have hdr {x : Nat} (ne : x ≠ o) : (m.addCopy o rc).hdr x = m.hdr x := Function.update_of_ne ne _ _
  have tail := logged.wb_le_tail
  refine { logged with
    locks := ⟨fun x c held => ?_, fun ctr j e rest lt here => ?_, fun x => ?_⟩
    runs := fun ctr j e le lt here => ?_
    lockedUsed := fun x c held => ?_
    empty := fun slot other => ?_ }
  · by_cases eq : x = o
    · subst eq
      rw [hdrO] at held
      obtain rfl := PObjCopy.copy.inj held
      refine ⟨m.wsTailCounter, _, ?_, Nat.lt_succ_self _, rfl, logged.curId, RluMem.addCopy_next, rfl⟩
      show m.wsWbCounter < _ ∨ m.wsWbCounter = _ ∧ 0 ≤ _
      omega
    · obtain ⟨ctr, e, rest, lt, owner, slot, here, actual⟩ := logged.locks.held x c ((hdr eq).symm.trans held)
      exact ⟨ctr, e, rest, lt, owner, slot, RluMem.addCopy_entry here, actual⟩
  · have le : m.wsWbCounter ≤ ctr := by
      have rest : m.wsWbCounter < ctr ∨ m.wsWbCounter = ctr ∧ 0 ≤ j := rest
      omega
    rcases logged.addCopy_log two room le lt here with old | ⟨-, rfl, same⟩
    · obtain ⟨locked, id⟩ := logged.locks.logged ctr j e rest lt old
      refine ⟨(hdr ?_).trans locked, id⟩
      rintro rfl
      rw [free] at locked
      cases locked
    · rw [same]
      exact ⟨hdrO, rfl⟩
  · by_cases eq : x = o
    · rw [eq, hdrO]
      rintro ⟨⟩
    · rw [hdr eq]
      exact logged.locks.unmarked x
  · rcases logged.addCopy_log two room le lt here with old | ⟨last, rfl, -⟩
    · exact logged.runs ctr j e le lt old
    · exact ⟨le_rfl, fun before => absurd last (Nat.ne_of_lt before)⟩
  · by_cases eq : x = o
    · exact eq ▸ used
    · exact logged.lockedUsed x c ((hdr eq).symm.trans held)
  · have ne : slot ≠ m.wsCurId := by
      rintro rfl
      exact other m.wsTailCounter (logged.head_le_wb.trans tail) (Nat.lt_succ_self _) logged.curId.symm
    exact (Function.update_of_ne ne _ _).trans (logged.empty slot other)

theorem Logged.addCopy_content (logged : Logged M m k rc) (free : m.hdr o = .null) (x : Nat) :
    (m.addCopy o rc).content x = m.content x := by
  by_cases eq : x = o
  · subst eq
    rw [RluMem.content_free free]
    exact RluMem.content_held (Function.update_self _ _ _) RluMem.addCopy_next
  · refine RluMem.content_congr logged.locks (Function.update_of_ne eq _ _) (fun _ => rfl) fun c held => ?_
    obtain ⟨-, e, -, -, -, here, -⟩ := logged.locks.entry held
    exact (RluMem.addCopy_entry here).trans here.symm

end Lock

/-! ### Stores -/

section Store
variable {M : Nat} {m : RluMem} {o rc k a : Nat} {v : Int} {c c' : CopyAddr} {e e' : Entry} {q : Ptr}
  {q' : Ptr}

def RluMem.setNext (m : RluMem) (c : CopyAddr) (e : Entry) (q : Ptr) : RluMem :=
  { m with
    log := Function.update m.log c.slot
      ((m.log c.slot).set c.idx { e with copy := { e.copy with pNext := q } }) }

theorem RluMem.assignNext_copy (here : m.entryAt c = some e) (target : m.forceActual q = some q') :
    m.assignNext (.copy c) q = some (m.setNext c e q') := by
  unfold RluMem.assignNext
  rw [target, Option.bind_some]
  show (m.entryAt c).map _ = _
  rw [here]
  rfl

/-- The other entries stay, and the one that is stored in keeps all but the pointer. -/
theorem RluMem.setNext_entry (here : m.entryAt c = some e) (c' : CopyAddr) :
    (m.setNext c e q).entryAt c' =
      if c'.slot = c.slot ∧ c'.idx = c.idx then some { e with copy := { e.copy with pNext := q } }
      else m.entryAt c' := by
  have at_ : (m.log c.slot)[c.idx]? = some e := here
  show (Function.update m.log c.slot _ c'.slot)[c'.idx]? = _
  by_cases slot : c'.slot = c.slot
  · rw [slot, Function.update_self, List.getElem?_set]
    by_cases idx : c'.idx = c.idx
    · rw [if_pos idx.symm, if_pos (List.getElem?_eq_some_iff.mp at_).1, if_pos ⟨rfl, idx⟩]
    · rw [if_neg fun eq => idx eq.symm, if_neg fun both => idx both.2]
      exact congrArg (fun slot => (m.log slot)[c'.idx]?) slot.symm
  · rw [Function.update_of_ne slot, if_neg fun both => slot both.1]
    rfl

/-- An entry after a store is an old one but for the copied pointer. -/
theorem RluMem.setNext_old (here : m.entryAt c = some e) (c' : CopyAddr)
    (now : (m.setNext c e q).entryAt c' = some e') :
    ∃ old, m.entryAt c' = some old ∧ e'.pObjActual = old.pObjActual ∧ e'.threadId = old.threadId ∧
      e'.runCounter = old.runCounter := by
  rw [RluMem.setNext_entry here] at now
  split at now
  · rename_i same
    obtain rfl := Option.some.inj now
    refine ⟨e, ?_, rfl, rfl, rfl⟩
    show (m.log c'.slot)[c'.idx]? = some e
    rw [same.1, same.2]
    exact here
  · exact ⟨e', now, rfl, rfl, rfl⟩

theorem RluMem.setNext_new (here : m.entryAt c = some e) (old : m.entryAt c' = some e') :
    ∃ now, (m.setNext c e q).entryAt c' = some now ∧ now.pObjActual = e'.pObjActual := by
  rw [RluMem.setNext_entry here]
  split
  · rename_i same
    have at_ : (m.log c'.slot)[c'.idx]? = some e' := old
    rw [same.1, same.2] at at_
    obtain rfl := Option.some.inj (at_.symm.trans here)
    exact ⟨_, rfl, rfl⟩
  · exact ⟨e', old, rfl⟩

theorem Logged.setNext (logged : Logged M m k rc) (here : m.entryAt c = some e) :
    Logged M (m.setNext c e q) k rc where
  locks := by
    refine ⟨fun x c' held => ?_, fun ctr j e' rest lt now => ?_, logged.locks.unmarked⟩
    · obtain ⟨ctr, e', rest, lt, owner, slot, old, actual⟩ := logged.locks.held x c' held
      obtain ⟨now, entry, same⟩ := RluMem.setNext_new (q := q) here old
      exact ⟨ctr, now, rest, lt, owner, slot, entry, same.trans actual⟩
    · obtain ⟨old, entry, actual, id, -⟩ :=
        RluMem.setNext_old here ⟨uniqId, wsIndex ctr, j⟩ now
      obtain ⟨locked, mine⟩ := logged.locks.logged ctr j old rest lt entry
      rw [actual, id]
      exact ⟨locked, mine⟩
  runs := by
    intro ctr j e' le lt now
    obtain ⟨old, entry, -, -, run⟩ := RluMem.setNext_old here ⟨uniqId, wsIndex ctr, j⟩ now
    rw [run]
    exact logged.runs ctr j old le lt entry
  lockedUsed := logged.lockedUsed
  empty := by
    intro slot other
    have none := logged.empty slot other
    show Function.update m.log c.slot _ slot = []
    by_cases eq : slot = c.slot
    · subst eq
      rw [Function.update_self, none]
      rfl
    · rw [Function.update_of_ne eq]
      exact none
  head_le_wb := logged.head_le_wb
  wb_le_tail := logged.wb_le_tail
  tail_le := logged.tail_le
  wb_le := logged.wb_le
  curId := logged.curId

theorem Logged.setNext_content (logged : Logged M m k rc) (held : m.hdr o = .copy c)
    (here : m.entryAt c = some e) :
    (m.setNext c e q).content = Function.update m.content o { m.content o with pNext := q } := by
  funext x
  by_cases eq : x = o
  · subst eq
    have now : (m.setNext c e q).entryAt c = some { e with copy := { e.copy with pNext := q } } := by
      rw [RluMem.setNext_entry here, if_pos ⟨rfl, rfl⟩]
    have held' : (m.setNext c e q).hdr x = .copy c := held
    rw [Function.update_self, RluMem.content_held held here, RluMem.content_held held' now]
  · rw [Function.update_of_ne eq]
    refine RluMem.content_congr logged.locks rfl (fun _ => rfl) fun c' held' => ?_
    rw [RluMem.setNext_entry here, if_neg]
    rintro ⟨slot, idx⟩
    obtain ⟨-, e₁, -, -, at₁, here₁, actual₁, -⟩ := logged.locks.entry held
    obtain ⟨-, e₂, -, -, at₂, here₂, actual₂, -⟩ := logged.locks.entry held'
    have same : m.entryAt c' = m.entryAt c := by
      show (m.log c'.slot)[c'.idx]? = (m.log c.slot)[c.idx]?
      rw [slot, idx]
    obtain rfl := Option.some.inj (here₂.symm.trans (same.trans here₁))
    exact eq (actual₂.symm.trans actual₁)

def RluMem.setNode (m : RluMem) (a : Nat) (n : NodeT) : RluMem :=
  { m with
    node := Function.update m.node a n
    used := Function.update m.used a true }

theorem Logged.free_of_fresh (logged : Logged M m k rc) (fresh : Fresh m.used a) : m.hdr a = .null := by
  rcases logged.locks.cases a with free | ⟨c, -, -, held, -⟩
  · exact free
  · have used := logged.lockedUsed a c held
    rw [fresh.2] at used
    cases used

theorem Logged.newNode (logged : Logged M m k rc) (fresh : Fresh m.used a)
    (target : m.forceActual q = some q') :
    (m.newNode a v).assignNext (.actual a) q = some (m.setNode a ⟨v, q'⟩) := by
  have hdr : Function.update m.hdr a .null = m.hdr :=
    Function.update_eq_self_iff.mpr (logged.free_of_fresh fresh).symm
  have target' : (m.newNode a v).forceActual q = some q' := target
  unfold RluMem.assignNext
  rw [target', Option.bind_some]
  unfold RluMem.newNode RluMem.setNode
  simp only [hdr, Function.update_self, Function.update_idem]

theorem Logged.setNode (logged : Logged M m k rc) (n : NodeT) : Logged M (m.setNode a n) k rc where
  locks := ⟨logged.locks.held, logged.locks.logged, logged.locks.unmarked⟩
  runs := logged.runs
  lockedUsed := by
    intro x c held
    show Function.update m.used a true x = true
    by_cases eq : x = a
    · rw [eq, Function.update_self]
    · rw [Function.update_of_ne eq]
      exact logged.lockedUsed x c held
  empty := logged.empty
  head_le_wb := logged.head_le_wb
  wb_le_tail := logged.wb_le_tail
  tail_le := logged.tail_le
  wb_le := logged.wb_le
  curId := logged.curId

theorem Logged.setNode_content (logged : Logged M m k rc) (fresh : Fresh m.used a) (n : NodeT) :
    (m.setNode a n).content = Function.update m.content a n := by
  funext x
  by_cases eq : x = a
  · subst eq
    have free : (m.setNode x n).hdr x = .null := logged.free_of_fresh fresh
    rw [Function.update_self, RluMem.content_free free]
    exact Function.update_self _ _ _
  · rw [Function.update_of_ne eq]
    exact RluMem.content_congr logged.locks rfl (fun _ => Function.update_of_ne eq _ _) fun _ _ => rfl

end Store

/-! ### Abort -/

/-- What an abort leaves of a section that has locked one node. -/
theorem RluMem.addCopy_unlock {m : RluMem} {o : Nat} (rc : Nat) (clean : m.log m.wsCurId = [])
    (free : m.hdr o = .null) (cur : m.wsCurId = wsIndex m.wsTailCounter) :
    (RluMem.unlockObjs m.wsCurId ((m.addCopy o rc).log m.wsCurId).length 0 (m.addCopy o rc)).map
      (fun m => m.resetWriteSet m.wsTailCounter) = some m := by
  have log : (m.addCopy o rc).log m.wsCurId = [⟨o, rc, uniqId, m.node o⟩] := by
    show Function.update m.log m.wsCurId _ m.wsCurId = _
    rw [Function.update_self, clean]
    rfl
  have held : (m.addCopy o rc).hdr o = .copy ⟨uniqId, m.wsCurId, 0⟩ := by
    show Function.update m.hdr o _ o = _
    rw [Function.update_self]
    unfold RluMem.nextCopy
    rw [clean]
    rfl
  rw [log]
  show (RluMem.unlockObjs m.wsCurId 1 0 (m.addCopy o rc)).map _ = _
  unfold RluMem.unlockObjs
  rw [log]
  show ((if (m.addCopy o rc).hdr o = .copy ⟨uniqId, m.wsCurId, 0⟩ then _ else none : Option RluMem).map _) = _
  rw [if_pos held]
  unfold RluMem.unlockObjs
  show some (RluMem.resetWriteSet _ _) = _
  unfold RluMem.resetWriteSet RluMem.addCopy
  simp only [← cur, Function.update_idem]
  rw [Function.update_eq_self_iff.mpr free.symm, Function.update_eq_self_iff.mpr clean.symm]

end ReadLogUpdate.Sequential
