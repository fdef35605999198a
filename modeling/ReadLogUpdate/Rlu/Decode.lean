import Mathlib.Data.List.Pairwise
import Mathlib.Data.Nat.Bitwise
import ReadLogUpdate.Rlu.Buffer

/-!
# Decoding the bytes of a write set

The layout of a log is a chain of entries, each starting where the copy of the one before ends,
rounded up to the alignment. Logging extends the chain, stores into copies miss its headers, and
both decoders walk it.
-/

namespace ReadLogUpdate

open Memory

/-! ### Alignment -/

theorem and_alignMask (objSize : Nat) : objSize &&& alignMask = objSize % 8 :=
  Nat.and_two_pow_sub_one_eq_mod objSize 3

theorem alignObjSize_eq (objSize : Nat) :
    alignObjSize objSize = if objSize % 8 ≠ 0 then objSize + (8 - objSize % 8) else objSize := by
  unfold alignObjSize performAlignment
  rw [and_alignMask]
  rfl

theorem le_alignObjSize (objSize : Nat) : objSize ≤ alignObjSize objSize := by
  rw [alignObjSize_eq]
  split_ifs <;> omega

theorem alignObjSize_aligned (objSize : Nat) : alignObjSize objSize % 8 = 0 := by
  rw [alignObjSize_eq]
  split_ifs <;> omega

/-! ### The chain of entries -/

section Chain
variable {run id : Nat} {m m' : Mem} {p q : Nat} {e : LogEntry} {es : List LogEntry}

/-- The headers of an entry at `p`. -/
structure HeaderAt (run id : Nat) (m : Mem) (p : Nat) (e : LogEntry) : Prop where
  actual : loadWord m p = e.pObjActual
  size : loadWord m (p + 8) = e.objSize
  runCounter : loadWord m (p + 16) = run
  threadId : loadWord m (p + 24) = id
  mark : loadWord m (p + 32) = ptrIdObjCopy
  copy : e.pObjCopy = p + 40

/-- The entries `es` lie one behind the other from `p` to `q`. -/
def Encoded (run id : Nat) (m : Mem) : Nat → List LogEntry → Nat → Prop
  | p, [], q => q = p
  | p, e :: es, q => HeaderAt run id m p e ∧ Encoded run id m (e.pObjCopy + alignObjSize e.objSize) es q

theorem HeaderAt.congr (h : HeaderAt run id m p e)
    (same : ∀ a, p ≤ a → a < p + 40 → m' a = m a) : HeaderAt run id m' p e where
  actual := (loadWord_congr fun a ge lt => same a ge (by omega)).trans h.actual
  size := (loadWord_congr fun a ge lt => same a (by omega) (by omega)).trans h.size
  runCounter := (loadWord_congr fun a ge lt => same a (by omega) (by omega)).trans h.runCounter
  threadId := (loadWord_congr fun a ge lt => same a (by omega) (by omega)).trans h.threadId
  mark := (loadWord_congr fun a ge lt => same a (by omega) (by omega)).trans h.mark
  copy := h.copy

theorem Encoded.le (h : Encoded run id m p es q) : p ≤ q := by
  induction es generalizing p with
  | nil => exact Nat.le_of_eq h.symm
  | cons e es ih =>
    have := ih h.2
    have := h.1.copy
    omega

theorem Encoded.bounds (h : Encoded run id m p es q) (mem : e ∈ es) :
    p + 40 ≤ e.pObjCopy ∧ e.pObjCopy + alignObjSize e.objSize ≤ q := by
  induction es generalizing p with
  | nil => cases mem
  | cons d es ih =>
    have copy := h.1.copy
    rcases List.mem_cons.mp mem with rfl | mem
    · exact ⟨by omega, h.2.le⟩
    · have := ih h.2 mem
      omega

theorem Encoded.congr (h : Encoded run id m p es q)
    (same : ∀ e ∈ es, ∀ a, e.pObjCopy - 40 ≤ a → a < e.pObjCopy → m' a = m a) :
    Encoded run id m' p es q := by
  induction es generalizing p with
  | nil => exact h
  | cons d es ih =>
    have copy := h.1.copy
    refine ⟨h.1.congr fun a ge lt => ?_, ih h.2 fun e mem => same e (List.mem_cons_of_mem _ mem)⟩
    exact same d List.mem_cons_self a (by omega) (by omega)

theorem Encoded.congr_range (h : Encoded run id m p es q)
    (same : ∀ a, p ≤ a → a < q → m' a = m a) : Encoded run id m' p es q :=
  h.congr fun e mem a ge lt => by
    have := h.bounds mem
    have := le_alignObjSize e.objSize
    exact same a (by omega) (by omega)

theorem Encoded.header (h : Encoded run id m p es q) (mem : e ∈ es) :
    HeaderAt run id m (e.pObjCopy - 40) e := by
  induction es generalizing p with
  | nil => cases mem
  | cons d es ih =>
    rcases List.mem_cons.mp mem with rfl | mem
    · have copy := h.1.copy
      have start : e.pObjCopy - 40 = p := by omega
      rw [start]
      exact h.1
    · exact ih h.2 mem

theorem Encoded.copy_apart (h : Encoded run id m p es q) {d : LogEntry} (memd : d ∈ es) (mem : e ∈ es)
    {a : Nat} (ge : d.pObjCopy ≤ a) (lt : a < d.pObjCopy + d.objSize) :
    ¬ (e.pObjCopy - 40 ≤ a ∧ a < e.pObjCopy) := by
  induction es generalizing p with
  | nil => cases mem
  | cons c es ih =>
    have aligned := le_alignObjSize c.objSize
    have copy := h.1.copy
    rcases List.mem_cons.mp memd with rfl | inRestd <;>
      rcases List.mem_cons.mp mem with rfl | inRest
    · omega
    · have := h.2.bounds inRest
      omega
    · have := h.2.bounds inRestd
      omega
    · exact ih h.2 inRestd inRest

theorem Encoded.aligned (h : Encoded run id m p es q) (start : p % 8 = 0) :
    q % 8 = 0 ∧ ∀ e ∈ es, e.pObjCopy % 8 = 0 := by
  induction es generalizing p with
  | nil => exact ⟨h ▸ start, nofun⟩
  | cons d es ih =>
    have copy := h.1.copy
    have size := alignObjSize_aligned d.objSize
    have rest := ih h.2 (by omega)
    refine ⟨rest.1, fun e mem => ?_⟩
    rcases List.mem_cons.mp mem with rfl | mem
    · omega
    · exact rest.2 e mem

theorem Encoded.snoc (h : Encoded run id m p es q) (header : HeaderAt run id m q e) :
    Encoded run id m p (es ++ [e]) (e.pObjCopy + alignObjSize e.objSize) := by
  induction es generalizing p with
  | nil =>
    obtain rfl : q = p := h
    exact ⟨header, rfl⟩
  | cons d es ih => exact ⟨h.1, ih h.2⟩

/-- With objects of one size the entries are at multiples of the size of an entry. -/
theorem Encoded.uniform (h : Encoded run id m p es q) {size : Nat} (same : ∀ e ∈ es, e.objSize = size) :
    q = p + es.length * (wsObjHeaderSize + objHeaderSize + alignObjSize size) := by
  induction es generalizing p with
  | nil => exact h.trans (by simp)
  | cons d es ih =>
    have rest := ih h.2 fun e mem => same e (List.mem_cons_of_mem _ mem)
    rw [rest, h.1.copy, same d List.mem_cons_self, List.length_cons, Nat.succ_mul, wsObjHeaderSize,
      objHeaderSize]
    omega

end Chain

/-! ### What holds while a section logs -/

/-- The log of the section is a chain that ends at `p_cur`, and the objects in it are locked. -/
structure LogOk (objs : List Obj) (st : LogState) : Prop where
  encoded : Encoded st.w.runCounter st.w.uniqId st.m st.w.buffer st.entries st.w.pCur
  count : st.w.numOfObjs = st.entries.length
  fits : st.w.pCur < st.w.buffer + rluMaxWriteSetBufferSize
  locked : ∀ e ∈ st.entries, getCopy st.m e.pObjActual = e.pObjCopy
  known : ∀ e ∈ st.entries, ∃ o ∈ objs, o.addr = e.pObjActual ∧ o.size = e.objSize
  distinct : st.entries.Pairwise fun e e' => e.pObjActual ≠ e'.pObjActual

section Logging
variable {objs : List Obj} {w : Writer} {m m' : Mem} {st st' : LogState} {o o' : Obj}

theorem Apart.others (h : Apart objs w) (mem : o ∈ objs) (mem' : o' ∈ objs) (ne : o.addr ≠ o'.addr)
    {a : Nat} (holds : o.Holds a) : ¬ o'.Holds a := by
  have symm : Std.Symm Obj.Disjoint := ⟨fun _ _ disjoint a holds => disjoint a holds.symm⟩
  have disjoint : o.Disjoint o' := h.1.forall mem mem' fun e => ne (congrArg Obj.addr e)
  exact fun holds' => disjoint a ⟨holds, holds'⟩

theorem Apart.buffer (h : Apart objs w) (mem : o ∈ objs) {a : Nat} (ge : w.buffer ≤ a)
    (lt : a < w.buffer + rluMaxWriteSetBufferSize) : a < o.addr - objHeaderSize ∨ o.addr + o.size ≤ a := by
  have apart := h.2 o mem a
  unfold Obj.Holds Writer.Holds at apart
  omega

/-- The header of an object is apart from what another object holds. -/
theorem getCopy_congr (same : ∀ a, o.addr - objHeaderSize ≤ a → a < o.addr → m' a = m a) :
    getCopy m' o.addr = getCopy m o.addr := by
  have header := o.header
  refine loadWord_congr fun a ge lt => same a ge ?_
  unfold objHeaderSize at *
  omega

/-- Stores into the copies and outside of the log leave the chain and the locks alone. -/
theorem LogOk.store {a : Nat} {b : UInt8} (h : LogOk objs st) (apart : Apart objs st.w)
    (ok : (LogOp.store a b).Ok objs st) : LogOk objs { st with m := Function.update st.m a b } where
  count := h.count
  fits := h.fits
  known := h.known
  distinct := h.distinct
  encoded := h.encoded.congr fun e mem x ge lt => Function.update_of_ne (by
    rintro rfl
    rcases ok with ⟨d, memd, ge', lt'⟩ | ⟨outside, -⟩
    · exact h.encoded.copy_apart memd mem ge' lt' ⟨ge, lt⟩
    · have := h.encoded.bounds mem
      have := h.fits
      exact outside ⟨by omega, by omega⟩) _ _
  locked e mem := by
    obtain ⟨o, memo, addr, size⟩ := h.known e mem
    have held := h.locked e mem
    rw [← addr] at held ⊢
    rw [← held]
    refine getCopy_congr fun x ge lt => Function.update_of_ne ?_ _ _
    rintro rfl
    rcases ok with ⟨d, memd, ge', lt'⟩ | ⟨-, headers⟩
    · have := h.encoded.bounds memd
      have := h.fits
      have := le_alignObjSize d.objSize
      have := apart.buffer memo (a := x) (by omega) (by omega)
      omega
    · exact headers e mem ⟨addr ▸ ge, addr ▸ lt⟩

theorem Writer.noteWrite_log (w : Writer) :
    w.noteWrite.runCounter = w.runCounter ∧ w.noteWrite.uniqId = w.uniqId ∧
    w.noteWrite.buffer = w.buffer ∧ w.noteWrite.numOfObjs = w.numOfObjs ∧
    w.noteWrite.pCur = w.pCur := by
  unfold noteWrite
  split_ifs <;> exact ⟨rfl, rfl, rfl, rfl, rfl⟩

theorem headerAt_of_add (pObj : o.addr < 2 ^ 64) (size : o.size < 2 ^ 64) :
    HeaderAt w.runCounter w.uniqId (rluAddWsObjHeaderToWriteSet w m o.addr o.size).2 w.pCur
      ⟨o.addr, o.size, w.pCur + 40⟩ := by
  have mark : ptrIdObjCopy < 2 ^ 64 := by decide
  refine ⟨?_, ?_, ?_, ?_, ?_, rfl⟩ <;>
    simp only [rluAddWsObjHeaderToWriteSet, wsObjHeaderSize]
  · iterate 4 rw [loadWord_storeWord_of_disjoint (by omega)]
    exact loadWord_storeWord pObj
  · iterate 3 rw [loadWord_storeWord_of_disjoint (by omega)]
    exact loadWord_storeWord size
  · iterate 2 rw [loadWord_storeWord_of_disjoint (by omega)]
    exact loadWord_storeWord w.runCounter_lt
  · rw [loadWord_storeWord_of_disjoint (by omega)]
    exact loadWord_storeWord w.uniqId_lt
  · exact loadWord_storeWord mark

theorem addHeader_outside {pObj objSize a : Nat} (outside : a < w.pCur ∨ w.pCur + 40 ≤ a) :
    (rluAddWsObjHeaderToWriteSet w m pObj objSize).2 a = m a := by
  simp only [rluAddWsObjHeaderToWriteSet, wsObjHeaderSize]
  iterate 5 rw [storeWord_outside (by omega)]

/-- The memory after the entry of `o` is logged at `p_cur` and its header set. -/
def logged (w : Writer) (m : Mem) (o : Obj) : Mem :=
  memcpy (storeWord (rluAddWsObjHeaderToWriteSet w m o.addr o.size).2 (o.addr - objHeaderSize)
    (w.pCur + 40)) (w.pCur + 40) o.addr o.size

theorem logged_outside {a : Nat} (entry : a < w.pCur ∨ w.pCur + 40 + o.size ≤ a)
    (header : a < o.addr - objHeaderSize ∨ o.addr ≤ a) : logged w m o a = m a := by
  have := o.header
  unfold objHeaderSize at *
  unfold logged objHeaderSize
  rw [memcpy_outside (by omega), storeWord_outside (by omega), addHeader_outside (by omega)]

theorem headerAt_logged (apart : ∀ a, w.pCur ≤ a → a < w.pCur + 40 →
    a < o.addr - objHeaderSize ∨ o.addr ≤ a) :
    HeaderAt w.runCounter w.uniqId (logged w m o) w.pCur ⟨o.addr, o.size, w.pCur + 40⟩ := by
  have header := o.header
  have fits := o.fits
  have size : o.size < 2 ^ 64 := by unfold objHeaderSize at header; omega
  refine (headerAt_of_add o.addr_lt size (m := m)).congr fun a ge lt => ?_
  have := apart a ge lt
  unfold objHeaderSize at *
  unfold logged objHeaderSize
  rw [memcpy_outside (by omega), storeWord_outside (by omega)]

/-- A lock of a free object writes its entry and its header and nothing else. -/
theorem rluTryLockFree_locked {c : Nat} {w' : Writer}
    (locked : rluTryLockFree w m o.addr o.size = .locked c w' m') :
    c = w.pCur + 40 ∧ m' = logged w.noteWrite m o ∧ getCopy m' o.addr = c ∧
    w' = { w.noteWrite with
      pCur := w.pCur + 40 + alignObjSize o.size
      numOfObjs := w.numOfObjs + 1 } ∧
    w.pCur + 40 + alignObjSize o.size - w.buffer < rluMaxWriteSetBufferSize := by
  obtain ⟨-, -, buffer, num, pCur⟩ := w.noteWrite_log
  have next : w.noteWrite.pCur + wsObjHeaderSize + objHeaderSize = w.pCur + 40 := by rw [pCur]; rfl
  simp only [rluTryLockFree] at locked
  split at locked
  · cases locked
  rename_i m₁ cas
  split_ifs at locked with fits check
  obtain ⟨rfl, rfl, rfl⟩ := TryLock.locked.inj locked
  unfold tryCasPtrObjCopy at cas
  split_ifs at cas
  obtain rfl := Option.some.inj cas
  simp only [rluAddObjCopyToWriteSet, rluAddWsObjHeaderToWriteSet, next, buffer] at fits
  refine ⟨next, ?_, check, ?_, fits⟩
  · simp only [logged, rluAddObjCopyToWriteSet, rluAddWsObjHeaderToWriteSet, pCur]
    rfl
  · simp only [rluAddObjCopyToWriteSet, rluAddWsObjHeaderToWriteSet, next, num]

theorem LogOk.tryLockFree {c : Nat} {w' : Writer} (h : LogOk objs st) (apart : Apart objs st.w)
    (mem : o ∈ objs) (new : ∀ e ∈ st.entries, e.pObjActual ≠ o.addr)
    (locked : rluTryLockFree st.w st.m o.addr o.size = .locked c w' m') :
    LogOk objs ⟨w', m', st.entries ++ [⟨o.addr, o.size, c⟩]⟩ ∧
    w'.numOfObjs ≠ st.w.numOfObjs ∧ w'.buffer = st.w.buffer := by
  obtain ⟨run, id, buffer, num, pCur⟩ := st.w.noteWrite_log
  obtain ⟨rfl, rfl, held, rfl, room⟩ := rluTryLockFree_locked locked
  have header := o.header
  have start := h.encoded.le
  have aligned := le_alignObjSize o.size
  have inBuffer {a : Nat} (ge : st.w.buffer ≤ a) (lt : a < st.w.pCur + 40 + o.size) :
      a < o.addr - objHeaderSize ∨ o.addr + o.size ≤ a := apart.buffer mem ge (by omega)
  have frame {a : Nat} (entry : a < st.w.pCur ∨ st.w.pCur + 40 + o.size ≤ a)
      (head : a < o.addr - objHeaderSize ∨ o.addr ≤ a) :
      logged st.w.noteWrite st.m o a = st.m a := logged_outside (by rwa [pCur]) head
  have entry : HeaderAt st.w.runCounter st.w.uniqId (logged st.w.noteWrite st.m o) st.w.pCur
      ⟨o.addr, o.size, st.w.pCur + 40⟩ := by
    have := headerAt_logged (w := st.w.noteWrite) (m := st.m) (o := o) fun a ge lt => by
      rw [pCur] at ge lt
      have := inBuffer (a := a) (by omega) (by omega)
      omega
    rwa [run, id, pCur] at this
  have old : Encoded st.w.runCounter st.w.uniqId (logged st.w.noteWrite st.m o) st.w.buffer
      st.entries st.w.pCur :=
    h.encoded.congr_range fun a ge lt => frame (.inl lt) (by
      have := inBuffer ge (by omega)
      omega)
  refine ⟨⟨?_, ?_, ?_, ?_, ?_, ?_⟩, Nat.succ_ne_self _, buffer⟩
  · show Encoded st.w.noteWrite.runCounter st.w.noteWrite.uniqId _ st.w.noteWrite.buffer _ _
    rw [run, id, buffer]
    exact old.snoc entry
  · show st.w.numOfObjs + 1 = (st.entries ++ [_]).length
    rw [h.count, List.length_append]
    rfl
  · show st.w.pCur + 40 + alignObjSize o.size < st.w.noteWrite.buffer + _
    rw [buffer]
    omega
  · intro e inEntries
    rcases List.mem_append.mp inEntries with old | new'
    · obtain ⟨o', mem', addr, size⟩ := h.known e old
      have held := h.locked e old
      have ne : o'.addr ≠ o.addr := addr ▸ new e old
      rw [← addr] at held ⊢
      rw [← held]
      refine getCopy_congr fun a ge lt => frame ?_ ?_
      · by_contra inside
        have := apart.buffer mem' (a := a) (by omega) (by omega)
        omega
      · have := apart.others mem' mem ne (a := a) ⟨ge, by omega⟩
        unfold Obj.Holds at this
        omega
    · obtain rfl := List.mem_singleton.mp new'
      exact held
  · intro e inEntries
    rcases List.mem_append.mp inEntries with old | new'
    · exact h.known e old
    · obtain rfl := List.mem_singleton.mp new'
      exact ⟨o, mem, rfl, rfl⟩
  · rw [List.pairwise_append]
    refine ⟨h.distinct, List.pairwise_singleton _ _, fun e old e' new' => ?_⟩
    obtain rfl := List.mem_singleton.mp new'
    exact new e old

/-- A lock of an object that the section holds returns its copy. -/
theorem LogOk.tryLockHeld {e : LogEntry} {size : Nat} (h : LogOk objs st) (mem : e ∈ st.entries) :
    rluTryLockActual st.w st.m e.pObjActual size = .locked e.pObjCopy st.w st.m := by
  have entry := h.encoded.header mem
  have bounds := h.encoded.bounds mem
  have pos := st.w.buffer_pos
  have toWsH : objCopyToWsH e.pObjCopy = e.pObjCopy - 40 := rfl
  have ne : e.pObjCopy ≠ 0 := by omega
  simp only [rluTryLockActual, wsThreadId, wsRunCounter, h.locked e mem, toWsH, entry.threadId,
    entry.runCounter, if_true]
  exact if_pos ne

/-- The address of a copy is aligned, so it is not the mark of a copy. -/
theorem LogOk.copy_ne_mark {e : LogEntry} (h : LogOk objs st) (mem : e ∈ st.entries) :
    e.pObjCopy ≠ ptrIdObjCopy := by
  have aligned := (h.encoded.aligned st.w.buffer_aligned).2 e mem
  intro eq
  rw [eq] at aligned
  exact absurd aligned (by decide)

theorem LogOk.exec {op : LogOp} (h : LogOk objs st) (apart : Apart objs st.w)
    (ok : op.Ok objs st) (stepped : st.exec op = some st') :
    LogOk objs st' ∧ st'.w.buffer = st.w.buffer := by
  cases op with
  | store a b =>
    obtain rfl := Option.some.inj stepped
    exact ⟨h.store apart ok, rfl⟩
  | tryLock pObj objSize =>
    -- a lock of an object that the section holds changes nothing
    have again {e : LogEntry} (mem : e ∈ st.entries)
        (locks : rluTryLock st.w st.m pObj objSize = .locked e.pObjCopy st.w st.m) :
        LogOk objs st' ∧ st'.w.buffer = st.w.buffer := by
      simp only [LogState.exec, locks, if_pos] at stepped
      obtain rfl := Option.some.inj stepped
      exact ⟨h, rfl⟩
    rcases ok with ⟨o, mem, rfl, rfl, free⟩ | ⟨e, mem, rfl⟩
    · have header := o.header
      have pos : o.addr ≠ 0 := by unfold objHeaderSize at header; omega
      by_cases held : ∃ e ∈ st.entries, e.pObjActual = o.addr
      · obtain ⟨e, mem', eq⟩ := held
        refine again mem' ?_
        unfold rluTryLock
        rw [if_neg pos, ← eq, h.locked e mem', if_neg (h.copy_ne_mark mem'), h.tryLockHeld mem']
      · have unlocked : getCopy st.m o.addr = 0 := free.resolve_right held
        have locks : rluTryLock st.w st.m o.addr o.size =
            rluTryLockFree st.w st.m o.addr o.size := by
          unfold rluTryLock rluTryLockActual
          rw [if_neg pos, unlocked, if_neg (by decide), if_neg (by decide)]
        simp only [LogState.exec, locks] at stepped
        split at stepped
        · rename_i c w' m' locked
          obtain rfl := Option.some.inj stepped
          obtain ⟨ok, more, buffer⟩ := h.tryLockFree apart mem
            (fun e mem' eq => held ⟨e, mem', eq⟩) locked
          rw [if_neg more]
          exact ⟨ok, buffer⟩
        · cases stepped
    · have entry := h.encoded.header mem
      have bounds := h.encoded.bounds mem
      have marked : getCopy st.m e.pObjCopy = ptrIdObjCopy := by
        rw [← entry.mark]
        unfold getCopy objHeaderSize
        congr 1
        omega
      refine again mem ?_
      unfold rluTryLock getActual
      rw [if_neg (show e.pObjCopy ≠ 0 by omega), if_pos marked,
        show objCopyToWsH e.pObjCopy = e.pObjCopy - 40 from rfl, entry.actual, h.tryLockHeld mem]

theorem LogOk.start (start : st.Start) : LogOk objs st := by
  obtain ⟨num, pCur, entries⟩ := start
  refine ⟨?_, ?_, ?_, ?_, ?_, ?_⟩
  · rw [entries]
    exact pCur
  · rw [entries]
    exact num
  · rw [pCur]
    exact Nat.lt_add_of_pos_right (by decide)
  · rw [entries]
    nofun
  · rw [entries]
    nofun
  · rw [entries]
    exact .nil

theorem LogState.Runs.logOk (start : st.Start) (apart : Apart objs st.w)
    (runs : LogState.Runs objs st st') : LogOk objs st' ∧ Apart objs st'.w := by
  refine System.Reachable.invariant (fun st => LogOk objs st ∧ Apart objs st.w) ?_
    (fun st op st' ⟨h, apart⟩ ok stepped => ?_) runs
  · rintro _ rfl
    exact ⟨.start start, apart⟩
  · obtain ⟨h', buffer⟩ := h.exec apart ok stepped
    refine ⟨h', apart.1, fun o mem a holds => apart.2 o mem a ⟨holds.1, ?_⟩⟩
    unfold Writer.Holds
    rw [← buffer]
    exact holds.2

end Logging

/-! ### The decoders -/

/-- The log at `p` of objects that are apart from it and from each other, each locked by its
entry. -/
structure Decodes (objs : List Obj) (w : Writer) (m : Mem) (p : Nat) (es : List LogEntry)
    (q : Nat) : Prop where
  encoded : Encoded w.runCounter w.uniqId m p es q
  ge : w.buffer ≤ p
  fits : q < w.buffer + rluMaxWriteSetBufferSize
  locked : ∀ e ∈ es, getCopy m e.pObjActual = e.pObjCopy
  known : ∀ e ∈ es, ∃ o ∈ objs, o.addr = e.pObjActual ∧ o.size = e.objSize
  distinct : es.Pairwise fun e e' => e.pObjActual ≠ e'.pObjActual

/-- The bytes of the object of an entry and of its header. -/
def LogEntry.Holds (e : LogEntry) (a : Nat) : Prop :=
  e.pObjActual - objHeaderSize ≤ a ∧ a < e.pObjActual + e.objSize

/-- What a write-back leaves: in every object of the log the bytes of its copy and a header that
is `NULL`, and the rest as it was. -/
structure WrittenBack (es : List LogEntry) (m m' : Mem) : Prop where
  copied : ∀ e ∈ es, ∀ i, i < e.objSize → m' (e.pObjActual + i) = m (e.pObjCopy + i)
  unlocked : ∀ e ∈ es, getCopy m' e.pObjActual = 0
  rest : ∀ a, (∀ e ∈ es, ¬ e.Holds a) → m' a = m a

/-- What `rlu_unlock_objs` leaves: `NULL` in the headers, and the rest as it was. -/
structure Unlocked (es : List LogEntry) (m m' : Mem) : Prop where
  unlocked : ∀ e ∈ es, getCopy m' e.pObjActual = 0
  rest : ∀ a, (∀ e ∈ es, ¬ (e.pObjActual - objHeaderSize ≤ a ∧ a < e.pObjActual)) → m' a = m a

section Decoders
variable {objs : List Obj} {w : Writer} {m m' : Mem} {p q : Nat} {e : LogEntry}
  {es : List LogEntry}

/-- A write to the object of the first entry and its header leaves the rest of the log. -/
theorem Decodes.tail (h : Decodes objs w m p (e :: es) q) (apart : Apart objs w)
    (same : ∀ a, ¬ e.Holds a → m' a = m a) :
    Decodes objs w m' (e.pObjCopy + alignObjSize e.objSize) es q := by
  obtain ⟨o, mem, addr, size⟩ := h.known e List.mem_cons_self
  have bounds := h.encoded.bounds List.mem_cons_self
  have ge := h.ge
  have fits := h.fits
  have header := o.header
  refine ⟨h.encoded.2.congr_range fun a ge' lt => same a fun holds => ?_, by omega, h.fits,
    fun e' mem' => ?_, fun e' mem' => h.known e' (List.mem_cons_of_mem _ mem'),
    (List.pairwise_cons.mp h.distinct).2⟩
  · unfold LogEntry.Holds at holds
    have := apart.buffer mem (a := a) (by omega) (by omega)
    omega
  · obtain ⟨o', inObjs, addr', size'⟩ := h.known e' (List.mem_cons_of_mem _ mem')
    have ne : o'.addr ≠ o.addr := by
      rw [addr, addr']
      exact ((List.pairwise_cons.mp h.distinct).1 e' mem').symm
    rw [← h.locked e' (List.mem_cons_of_mem _ mem'), ← addr']
    refine getCopy_congr fun a ge lt => same a fun holds => ?_
    refine apart.others inObjs mem ne (a := a) ⟨ge, by omega⟩ ?_
    unfold LogEntry.Holds at holds
    exact ⟨addr ▸ holds.1, by omega⟩

/-- The objects of the other entries are apart from that of the first. -/
theorem Decodes.head_apart (h : Decodes objs w m p (e :: es) q) (apart : Apart objs w) {a : Nat}
    (holds : e.Holds a) : ∀ e' ∈ es, ¬ e'.Holds a := by
  intro e' mem' holds'
  obtain ⟨o, mem, addr, size⟩ := h.known e List.mem_cons_self
  obtain ⟨o', inObjs, addr', size'⟩ := h.known e' (List.mem_cons_of_mem _ mem')
  have ne : o.addr ≠ o'.addr := by
    rw [addr, addr']
    exact (List.pairwise_cons.mp h.distinct).1 e' mem'
  unfold LogEntry.Holds at holds holds'
  exact apart.others mem inObjs ne (a := a) ⟨addr ▸ holds.1, by omega⟩ ⟨addr' ▸ holds'.1, by omega⟩

/-- Only the log differs in what it holds from what an object holds. -/
theorem Decodes.copy_outside (h : Decodes objs w m p es q) (apart : Apart objs w) {d : LogEntry}
    (memd : d ∈ es) (mem : e ∈ es) {i : Nat} (lt : i < d.objSize) :
    ¬ e.Holds (d.pObjCopy + i) := by
  obtain ⟨o, inObjs, addr, size⟩ := h.known e mem
  have bounds := h.encoded.bounds memd
  have aligned := le_alignObjSize d.objSize
  have ge := h.ge
  have fits := h.fits
  have := apart.buffer inObjs (a := d.pObjCopy + i) (by omega) (by omega)
  unfold LogEntry.Holds
  omega

theorem unlock_outside {pObj a : Nat} (header : objHeaderSize ≤ pObj)
    (outside : a < pObj - objHeaderSize ∨ pObj ≤ a) : unlock m pObj a = m a := by
  unfold objHeaderSize at *
  exact storeWord_outside (by unfold objHeaderSize; omega)

theorem getCopy_unlock {pObj : Nat} : getCopy (unlock m pObj) pObj = 0 :=
  loadWord_storeWord (by decide)

theorem writebackLoop_spec (h : Decodes objs w m p es q) (apart : Apart objs w) :
    ∃ m', writebackLoop w.uniqId es.length p m = .ok (es, q, m') ∧ WrittenBack es m m' := by
  induction es generalizing p m with
  | nil =>
    obtain rfl : q = p := h.encoded
    exact ⟨m, rfl, nofun, nofun, fun _ _ => rfl⟩
  | cons e es ih =>
    obtain ⟨o, mem, addr, size⟩ := h.known e List.mem_cons_self
    have entry := h.encoded.1
    have bounds := h.encoded.bounds List.mem_cons_self
    have aligned := le_alignObjSize e.objSize
    have header := o.header
    have ge := h.ge
    have fits := h.fits
    have inBuffer {a : Nat} (ge : w.buffer ≤ a) (lt : a < q) : ¬ e.Holds a := by
      have := apart.buffer mem ge (by omega)
      unfold LogEntry.Holds
      omega
    have outside {a : Nat} (not : ¬ e.Holds a) :
        memcpy m e.pObjActual e.pObjCopy e.objSize a = m a :=
      memcpy_outside (by unfold LogEntry.Holds at not; omega)
    -- the assertion finds the entry through the header of the object
    have held : getCopy (memcpy m e.pObjActual e.pObjCopy e.objSize) e.pObjActual = e.pObjCopy := by
      rw [← h.locked e List.mem_cons_self, ← addr]
      exact getCopy_congr fun a _ lt => memcpy_outside (by omega)
    have owner : wsThreadId (memcpy m e.pObjActual e.pObjCopy e.objSize) e.pObjCopy = w.uniqId := by
      have toWsH : objCopyToWsH e.pObjCopy = p := by
        rw [entry.copy]
        exact Nat.add_sub_cancel p 40
      unfold wsThreadId
      rw [toWsH, ← entry.threadId]
      exact loadWord_congr fun a ge lt => outside (inBuffer (by omega) (by omega))
    have frame : ∀ a, ¬ e.Holds a →
        unlock (memcpy m e.pObjActual e.pObjCopy e.objSize) e.pObjActual a = m a := by
      intro a not
      rw [unlock_outside (addr ▸ header) (by unfold LogEntry.Holds at not; omega)]
      exact outside not
    obtain ⟨m', loop, copied, unlocked, rest⟩ := ih (h.tail apart frame)
    have copy : p + wsObjHeaderSize + objHeaderSize = e.pObjCopy := entry.copy.symm
    refine ⟨m', ?_, ?_, ?_, ?_⟩
    · simp only [List.length_cons, writebackLoop, entry.actual, entry.size, copy,
        show loadWord m (p + wsObjHeaderSize) = ptrIdObjCopy from entry.mark, held, owner, if_true,
        loop]
      rfl
    · intro d memd i lt
      rcases List.mem_cons.mp memd with rfl | inRest
      · have holds : d.Holds (d.pObjActual + i) := ⟨by omega, by omega⟩
        rw [rest _ (h.head_apart apart holds), unlock_outside (addr ▸ header) (.inr (by omega)),
          memcpy_inside (by omega) (by omega), Nat.add_sub_cancel_left]
      · rw [copied d inRest i lt]
        exact frame _ (h.copy_outside apart memd List.mem_cons_self lt)
    · intro d memd
      rcases List.mem_cons.mp memd with rfl | inRest
      · have same : getCopy m' o.addr = getCopy
            (unlock (memcpy m d.pObjActual d.pObjCopy d.objSize) d.pObjActual) o.addr :=
          getCopy_congr fun a ge lt => rest a (h.head_apart apart ⟨addr ▸ ge, by omega⟩)
        rw [addr] at same
        rw [same, getCopy_unlock]
      · exact unlocked d inRest
    · intro a none
      rw [rest a fun d inRest => none d (List.mem_cons_of_mem _ inRest)]
      exact frame a (none e List.mem_cons_self)

theorem unlockLoop_spec (h : Decodes objs w m p es q) (apart : Apart objs w) :
    ∃ m', unlockLoop es.length p m = .ok (es, m') ∧ Unlocked es m m' := by
  induction es generalizing p m with
  | nil => exact ⟨m, rfl, nofun, fun _ _ => rfl⟩
  | cons e es ih =>
    obtain ⟨o, mem, addr, size⟩ := h.known e List.mem_cons_self
    have entry := h.encoded.1
    have header := o.header
    have frame : ∀ a, ¬ e.Holds a → unlock m e.pObjActual a = m a := by
      intro a not
      exact unlock_outside (addr ▸ header) (by unfold LogEntry.Holds at not; omega)
    obtain ⟨m', loop, unlocked, rest⟩ := ih (h.tail apart frame)
    have copy : p + wsObjHeaderSize + objHeaderSize = e.pObjCopy := entry.copy.symm
    refine ⟨m', ?_, ?_, ?_⟩
    · simp only [List.length_cons, unlockLoop, entry.actual, entry.size, copy,
        show loadWord m (p + wsObjHeaderSize) = ptrIdObjCopy from entry.mark,
        h.locked e List.mem_cons_self, if_true, loop]
      rfl
    · intro d memd
      rcases List.mem_cons.mp memd with rfl | inRest
      · have same : getCopy m' o.addr = getCopy (unlock m d.pObjActual) o.addr := by
          refine getCopy_congr fun a ge lt => rest a fun d' mem' holds => ?_
          exact h.head_apart apart (e := d) ⟨addr ▸ ge, by omega⟩ d' mem' ⟨holds.1, by omega⟩
        rw [addr] at same
        rw [same, getCopy_unlock]
      · exact unlocked d inRest
    · intro a none
      rw [rest a fun d inRest => none d (List.mem_cons_of_mem _ inRest)]
      have first := none e List.mem_cons_self
      exact unlock_outside (addr ▸ header) (by omega)

end Decoders

theorem LogOk.decodes {objs : List Obj} {st : LogState} (h : LogOk objs st) :
    Decodes objs st.w st.m st.w.buffer st.entries st.w.pCur :=
  ⟨h.encoded, Nat.le_refl _, h.fits, h.locked, h.known, h.distinct⟩

/-- Whatever a section logged, both decoders visit its entries in the order of the locks; the
write-back ends at `p_cur` and moves exactly the copies into their objects, and the abort only
clears the headers. -/
theorem log_decodes (objs : List Obj) (st₀ st : LogState) (start : st₀.Start)
    (apart : Apart objs st₀.w) (runs : LogState.Runs objs st₀ st) :
    (∃ m', rluWritebackWriteSet st.w st.m = .ok (st.entries, st.w.pCur, m') ∧
      WrittenBack st.entries st.m m') ∧
    ∃ m', rluUnlockObjs st.w st.m = .ok (st.entries, m') ∧ Unlocked st.entries st.m m' := by
  obtain ⟨h, apart⟩ := runs.logOk start apart
  obtain ⟨m₁, writeback, written⟩ := writebackLoop_spec h.decodes apart
  obtain ⟨m₂, unlock, unlocked⟩ := unlockLoop_spec h.decodes apart
  rw [← h.count] at writeback unlock
  refine ⟨⟨m₁, ?_, written⟩, m₂, unlock, unlocked⟩
  unfold rluWritebackWriteSet
  rw [writeback]
  exact if_pos rfl

/-- With objects of one size in words, the place of an entry is its index times the size of an
entry. -/
theorem pCur_of_words (objs : List Obj) (st₀ st : LogState) (start : st₀.Start)
    (apart : Apart objs st₀.w) (runs : LogState.Runs objs st₀ st) {words : Nat}
    (same : ∀ o ∈ objs, o.size = 8 * words) : st.w.pCur =
      st.w.buffer + st.w.numOfObjs * (wsObjHeaderSize + objHeaderSize + 8 * words) := by
  obtain ⟨h, -⟩ := runs.logOk start apart
  have aligned : alignObjSize (8 * words) = 8 * words := by
    rw [alignObjSize_eq, if_neg (by omega)]
  have sizes : ∀ e ∈ st.entries, e.objSize = 8 * words := by
    intro e mem
    obtain ⟨o, inObjs, -, size⟩ := h.known e mem
    rw [← size, same o inObjs]
  rw [h.encoded.uniform sizes, h.count, aligned]

/-- An empty object and one of 13 bytes. -/
def oddObjs : List Obj :=
  [⟨16, 0, by decide, by decide, by decide⟩, ⟨1024, 13, by decide, by decide, by decide⟩]

/-- A writer with its buffer behind them, in a memory of zeros. -/
def oddStart : LogState :=
  ⟨⟨3, 1, false, true, 0, 4096, 0, 4096, by decide, by decide, by decide, by decide, by decide⟩,
    fun _ => 0, []⟩

def oddOps : List LogOp :=
  [.tryLock 16 0, .tryLock 1024 13, .store 4176 7, .tryLock 1024 13, .tryLock 4176 13]

theorem log_decodes_odd : ∃ st m', LogState.Runs oddObjs oddStart st ∧
    st.entries = [⟨16, 0, 4136⟩, ⟨1024, 13, 4176⟩] ∧
    rluWritebackWriteSet st.w st.m = .ok (st.entries, st.w.pCur, m') ∧
    WrittenBack st.entries st.m m' := by
  have start : oddStart.Start := ⟨rfl, rfl, rfl⟩
  have apart : Apart oddObjs oddStart.w := by
    constructor
    · refine .cons (fun o mem a => ?_) (List.pairwise_singleton _ _)
      obtain rfl := List.mem_singleton.mp mem
      unfold Obj.Holds objHeaderSize
      dsimp only
      omega
    · intro o mem a
      simp only [oddObjs, List.mem_cons, List.not_mem_nil, or_false] at mem
      unfold Obj.Holds Writer.Holds oddStart objHeaderSize
      rcases mem with rfl | rfl <;> dsimp only <;> omega
  have reached : (System.run (System.guarded LogState.exec fun st op => op.Ok oddObjs st)
      oddStart oddOps).any (fun st =>
        decide (st.entries = [⟨16, 0, 4136⟩, ⟨1024, 13, 4176⟩])) = true := by
    decide +kernel
  obtain ⟨st, runs, entries⟩ := System.exists_reachable rfl reached
  obtain ⟨⟨m', writeback, written⟩, -⟩ := log_decodes oddObjs oddStart st start apart runs
  exact ⟨st, m', runs, of_decide_eq_true entries, writeback, written⟩

end ReadLogUpdate
