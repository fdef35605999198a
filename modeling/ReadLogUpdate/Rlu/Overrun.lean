import Mathlib.Algebra.BigOperators.Group.List.Basic
import ReadLogUpdate.Rlu.Decode

/-!
# The end of the buffer

`rlu_add_ws_obj_header_to_write_set` checks nothing, and `rlu_add_obj_copy_to_write_set` asserts
the size of the log after it has copied the object. Where the two store is followed through the
calls of a section, while other threads change the memory.
-/

namespace ReadLogUpdate

open Memory

/-- A store into the log: a word, or the bytes of a `memcpy`. -/
inductive LogStore where
  | word (a v : Nat)
  | block (dst src n : Nat)

def LogStore.run (m : Mem) : LogStore → Mem
  | .word a v => storeWord m a v
  | .block dst src n => memcpy m dst src n

def LogStore.Holds (a : Nat) : LogStore → Prop
  | .word b _ => b ≤ a ∧ a < b + 8
  | .block dst _ n => dst ≤ a ∧ a < dst + n

def headerStores (w : Writer) (pObj objSize : Nat) : List LogStore :=
  [.word w.pCur pObj, .word (w.pCur + 8) objSize, .word (w.pCur + 16) w.runCounter,
    .word (w.pCur + 24) w.uniqId, .word (w.pCur + wsObjHeaderSize) ptrIdObjCopy]

def copyStores (w : Writer) (pObj objSize : Nat) : List LogStore := [.block w.pCur pObj objSize]

theorem rluAddWsObjHeaderToWriteSet_mem (w : Writer) (m : Mem) (pObj objSize : Nat) :
    (rluAddWsObjHeaderToWriteSet w m pObj objSize).2 =
      (headerStores w pObj objSize).foldl LogStore.run m := rfl

theorem rluAddObjCopyToWriteSet_mem (w : Writer) (m : Mem) (pObj objSize : Nat) :
    (rluAddObjCopyToWriteSet w m pObj objSize).2 =
      (copyStores w pObj objSize).foldl LogStore.run m := rfl

/-- How far a call of `rlu_try_lock` gets: it returns before it logs, its CAS fails, or it copies
the object. The other threads decide, and `m` and `m'` are the memory they leave to the header and
to the copy. -/
inductive LogCall where
  | returns
  | casFails (m : Mem) (pObj objSize : Nat)
  | copies (m m' : Mem) (pObj objSize : Nat)

def Writer.withHeader (w : Writer) (m : Mem) (pObj objSize : Nat) : Writer :=
  (rluAddWsObjHeaderToWriteSet w.noteWrite m pObj objSize).1

def LogCall.after (w : Writer) : LogCall → Writer
  | .returns => w
  | .casFails m pObj objSize => w.withHeader m pObj objSize
  | .copies m m' pObj objSize =>
    (rluAddObjCopyToWriteSet (w.withHeader m pObj objSize) m' pObj objSize).1

def LogCall.stores (w : Writer) : LogCall → List LogStore
  | .returns => []
  | .casFails _ pObj objSize => headerStores w.noteWrite pObj objSize
  | .copies m _ pObj objSize =>
    headerStores w.noteWrite pObj objSize ++ copyStores (w.withHeader m pObj objSize) pObj objSize

/-- The assertion of `rlu_add_obj_copy_to_write_set`, where the call gets there. -/
def LogCall.passes (w : Writer) : LogCall → Bool
  | .copies m m' pObj objSize =>
    ((LogCall.copies m m' pObj objSize).after w).pCur - w.buffer < rluMaxWriteSetBufferSize
  | _ => true

def Writer.call (w : Writer) (c : LogCall) : Option Writer :=
  if c.passes w then some (c.after w) else none

/-- The bytes by which a call moves `p_cur`. -/
def LogCall.moves : LogCall → Nat
  | .returns => 0
  | .casFails _ _ _ => 40
  | .copies _ _ _ objSize => 40 + alignObjSize objSize

/-- The bytes that a call needs behind `p_cur`; `none` where it stores nothing. -/
def LogCall.needs : LogCall → Option Nat
  | .returns => none
  | .casFails _ _ _ => some 40
  | .copies _ _ _ objSize => some (40 + objSize)

section Call
variable {w w' : Writer} {c : LogCall} {m : Mem} {pObj objSize : Nat}

theorem Writer.noteWrite_pCur : w.noteWrite.pCur = w.pCur := by
  unfold Writer.noteWrite
  split_ifs <;> rfl

theorem Writer.noteWrite_buffer : w.noteWrite.buffer = w.buffer := by
  unfold Writer.noteWrite
  split_ifs <;> rfl

theorem Writer.withHeader_pCur : (w.withHeader m pObj objSize).pCur = w.pCur + 40 :=
  congrArg (· + 40) Writer.noteWrite_pCur

theorem LogCall.after_pCur : (c.after w).pCur = w.pCur + c.moves := by
  cases c with
  | returns => rfl
  | casFails m pObj objSize => exact Writer.withHeader_pCur
  | copies m m' pObj objSize =>
    show (w.withHeader m pObj objSize).pCur + alignObjSize objSize = _
    rw [Writer.withHeader_pCur, Nat.add_assoc]
    rfl

theorem LogCall.after_buffer : (c.after w).buffer = w.buffer := by
  cases c with
  | returns => rfl
  | casFails | copies => exact Writer.noteWrite_buffer

theorem run_pCur {calls : List LogCall} (ran : System.run Writer.call w calls = some w') :
    w'.pCur = w.pCur + (calls.map LogCall.moves).sum ∧ w'.buffer = w.buffer := by
  induction calls generalizing w with
  | nil =>
    obtain rfl := Option.some.inj ran
    exact ⟨rfl, rfl⟩
  | cons c calls ih =>
    obtain ⟨w₁, called, rest⟩ := Option.bind_eq_some_iff.mp ran
    unfold Writer.call at called
    split_ifs at called
    obtain rfl := Option.some.inj called
    obtain ⟨pCur, buffer⟩ := ih rest
    rw [LogCall.after_pCur] at pCur
    rw [List.map_cons, List.sum_cons, ← Nat.add_assoc]
    exact ⟨pCur, buffer.trans LogCall.after_buffer⟩

/-- The stores of the header fill the 40 bytes behind `p_cur`. -/
theorem headerStores_holds {a : Nat} :
    (∃ st ∈ headerStores w pObj objSize, st.Holds a) ↔ w.pCur ≤ a ∧ a < w.pCur + 40 := by
  unfold headerStores
  simp only [List.mem_cons, List.not_mem_nil, or_false, exists_eq_or_imp, exists_eq_left,
    LogStore.Holds, wsObjHeaderSize]
  omega

/-- The stores of a call fill what it needs behind `p_cur`. -/
theorem LogCall.stores_holds {n : Nat} (needs : c.needs = some n) {a : Nat} :
    (∃ st ∈ c.stores w, st.Holds a) ↔ w.pCur ≤ a ∧ a < w.pCur + n := by
  cases c with
  | returns => cases needs
  | casFails m pObj objSize =>
    obtain rfl := Option.some.inj needs
    rw [← Writer.noteWrite_pCur]
    exact headerStores_holds
  | copies m m' pObj objSize =>
    obtain rfl := Option.some.inj needs
    have header : (∃ st ∈ headerStores w.noteWrite pObj objSize, st.Holds a) ↔
        w.pCur ≤ a ∧ a < w.pCur + 40 := by
      rw [headerStores_holds, Writer.noteWrite_pCur]
    have copy : (∃ st ∈ copyStores (w.withHeader m pObj objSize) pObj objSize, st.Holds a) ↔
        w.pCur + 40 ≤ a ∧ a < w.pCur + 40 + objSize := by
      unfold copyStores
      simp only [List.mem_singleton, exists_eq_left, LogStore.Holds, Writer.withHeader_pCur]
    show (∃ st ∈ headerStores _ _ _ ++ copyStores _ _ _, st.Holds a) ↔ _
    simp only [List.mem_append, or_and_right, exists_or]
    rw [header, copy]
    omega

/-- A call stays in the buffer when what it needs fits. -/
theorem LogCall.fits (start : w.buffer ≤ w.pCur) :
    (∀ st ∈ c.stores w, ∀ a, st.Holds a → w.Holds a) ↔
      ∀ n, c.needs = some n → w.pCur + n ≤ w.buffer + rluMaxWriteSetBufferSize := by
  constructor
  · intro inside n needs
    have pos : 0 < n := by
      cases c with
      | returns => cases needs
      | casFails | copies =>
        obtain rfl := Option.some.inj needs
        omega
    have atEnd : ∃ st ∈ c.stores w, st.Holds (w.pCur + n - 1) :=
      (stores_holds needs).mpr ⟨by omega, by omega⟩
    obtain ⟨st, mem, holds⟩ := atEnd
    have := (inside st mem _ holds).2
    omega
  · intro room st mem a holds
    cases needs : c.needs with
    | none =>
      cases c with
      | returns => cases mem
      | casFails | copies => cases needs
    | some n =>
      obtain ⟨ge, lt⟩ := (stores_holds needs).mp ⟨st, mem, holds⟩
      have := room n needs
      exact ⟨by omega, by omega⟩

/-! ### The calls of `rlu_try_lock` -/

theorem LogStore.run_outside {st : LogStore} {a : Nat} (outside : ¬ st.Holds a) : st.run m a = m a := by
  cases st with
  | word b v => exact storeWord_outside (by simp only [LogStore.Holds] at outside; omega)
  | block dst src n => exact memcpy_outside (by simp only [LogStore.Holds] at outside; omega)

theorem run_outside {stores : List LogStore} {a : Nat} (outside : ∀ st ∈ stores, ¬ st.Holds a) :
    stores.foldl LogStore.run m a = m a := by
  induction stores generalizing m with
  | nil => rfl
  | cons st rest ih =>
    rw [List.foldl_cons, ih fun st' mem => outside st' (List.mem_cons_of_mem _ mem)]
    exact LogStore.run_outside (outside st List.mem_cons_self)

/-- What a call of `rlu_try_lock` does to the log and to the memory: it changes the bytes that it
stores into the log, and the header of the object it locks. -/
structure LogCall.Does (w : Writer) (m : Mem) (c : LogCall) (w' : Writer) (m' : Mem) : Prop where
  passes : c.passes w = true
  pCur : w'.pCur = (c.after w).pCur
  buffer : w'.buffer = w.buffer
  outside : ∃ pObj, ∀ a, (∀ st ∈ c.stores w, ¬ st.Holds a) →
    ¬ (pObj - objHeaderSize ≤ a ∧ a < pObj - objHeaderSize + 8) → m' a = m a

/-- Every call of `rlu_try_lock` is one of the kinds, and its size assertion is theirs. -/
inductive TryLock.Logs (w : Writer) (m : Mem) : TryLock → Prop
  | locked {w' : Writer} {m' : Mem} (pObjCopy : Nat) (c : LogCall) (does : c.Does w m w' m') :
      TryLock.Logs w m (.locked pObjCopy w' m')
  | failed {w' : Writer} {m' : Mem} (request : Option Nat) (c : LogCall) (does : c.Does w m w' m') :
      TryLock.Logs w m (.failed request w' m')
  | asserted (line : Nat) (size : line = 305 → ∃ c : LogCall, c.passes w = false) :
      TryLock.Logs w m (.asserted line)

theorem LogCall.Does.returns {w' : Writer} (pCur : w'.pCur = w.pCur) (buffer : w'.buffer = w.buffer) :
    LogCall.returns.Does w m w' m := ⟨rfl, pCur, buffer, 0, fun _ _ _ => rfl⟩

theorem rluTryLockFree_logs : (rluTryLockFree w m pObj objSize).Logs w m := by
  have header {a : Nat} (outside : ∀ st ∈ headerStores w.noteWrite pObj objSize, ¬ st.Holds a) :
      (rluAddWsObjHeaderToWriteSet w.noteWrite m pObj objSize).2 a = m a := run_outside outside
  unfold rluTryLockFree
  dsimp only
  split
  · exact .failed _ (.casFails m pObj objSize) ⟨rfl, rfl, Writer.noteWrite_buffer, 0,
      fun a outside _ => header outside⟩
  · rename_i m₁ locked
    have swapped {a : Nat} (outside : ¬ (pObj - objHeaderSize ≤ a ∧ a < pObj - objHeaderSize + 8)) :
        m₁ a = (rluAddWsObjHeaderToWriteSet w.noteWrite m pObj objSize).2 a := by
      unfold tryCasPtrObjCopy at locked
      split_ifs at locked
      obtain rfl := Option.some.inj locked
      exact storeWord_outside (by omega)
    have same : (w.withHeader m pObj objSize).buffer = w.buffer := Writer.noteWrite_buffer
    split
    · rename_i room
      have passes : (LogCall.copies m m₁ pObj objSize).passes w = true := by
        refine decide_eq_true ?_
        rw [← same]
        exact room
      split
      · refine .locked _ (.copies m m₁ pObj objSize) ⟨passes, rfl, Writer.noteWrite_buffer, pObj,
          fun a outside elsewhere => ?_⟩
        have copy : ∀ st ∈ copyStores (w.withHeader m pObj objSize) pObj objSize, ¬ st.Holds a :=
          fun st mem => outside st (List.mem_append_right _ mem)
        have written := run_outside (m := m₁) copy
        exact written.trans ((swapped elsewhere).trans
          (header fun st mem => outside st (List.mem_append_left _ mem)))
      · exact .asserted _ fun line => absurd line (by decide)
    · rename_i room
      refine .asserted _ fun _ => ⟨.copies m m₁ pObj objSize, decide_eq_false fun inside => room ?_⟩
      rw [← same] at inside
      exact inside

theorem rluTryLockActual_logs : (rluTryLockActual w m pObj objSize).Logs w m := by
  unfold rluTryLockActual
  dsimp only
  by_cases held : getCopy m pObj ≠ 0
  · rw [if_pos held]
    by_cases mine : wsThreadId m (getCopy m pObj) = w.uniqId
    · rw [if_pos mine]
      by_cases now : w.runCounter = wsRunCounter m (getCopy m pObj)
      · rw [if_pos now]
        exact .locked _ _ (.returns rfl rfl)
      · rw [if_neg now]
        exact .failed _ _ (.returns rfl rfl)
    · rw [if_neg mine]
      exact .failed _ _ (.returns rfl rfl)
  · rw [if_neg held]
    exact rluTryLockFree_logs

theorem rluTryLock_logs : (rluTryLock w m pObj objSize).Logs w m := by
  unfold rluTryLock
  by_cases null : pObj = 0
  · rw [if_pos null]
    exact .asserted _ fun line => absurd line (by decide)
  · rw [if_neg null]
    by_cases isCopy : getCopy m pObj = ptrIdObjCopy
    · rw [if_pos isCopy]
      exact rluTryLockActual_logs
    · rw [if_neg isCopy]
      exact rluTryLockActual_logs

end Call

/-- Every byte that a call stores lies in the buffer exactly if the headers and the aligned objects
of the calls before it, its own header and, where its CAS succeeds, its object take no more than
the buffer has. -/
theorem log_stays_in_buffer (w₀ w : Writer) (empty : w₀.pCur = w₀.buffer) (calls : List LogCall)
    (ran : System.run Writer.call w₀ calls = some w) (last : LogCall) :
    (∀ st ∈ last.stores w, ∀ a, st.Holds a → w.Holds a) ↔
      ∀ n, last.needs = some n →
        (calls.map LogCall.moves).sum + n ≤ rluMaxWriteSetBufferSize := by
  obtain ⟨pCur, buffer⟩ := run_pCur ran
  rw [LogCall.fits (by omega)]
  refine forall_congr' fun n => imp_congr_right fun _ => ?_
  rw [pCur, buffer, empty]
  omega

def emptyLog : Writer :=
  ⟨1, 1, false, false, 0, 1048576, 0, 1048576, Nat.le_of_ble_eq_true rfl, Nat.le_of_ble_eq_true rfl,
    Nat.succ_pos _, rfl, Nat.le_of_ble_eq_true rfl⟩

theorem log_stays_in_buffer_node : emptyLog.pCur = emptyLog.buffer ∧
    ∀ st ∈ (LogCall.copies (fun _ => 0) (fun _ => 0) 8 144).stores emptyLog,
      ∀ a, st.Holds a → emptyLog.Holds a := by
  refine ⟨rfl, (log_stays_in_buffer emptyLog emptyLog rfl [] rfl _).mpr fun n needs => ?_⟩
  exact Option.some.inj needs ▸ show 0 + (40 + 144) ≤ 100000 by decide

/-- After one object of 99952 bytes the next header leaves the buffer, and where the CAS fails no
assertion stops it. -/
theorem log_leaves_buffer : ¬ ∀ (w₀ w : Writer), w₀.pCur = w₀.buffer → ∀ calls : List LogCall,
    System.run Writer.call w₀ calls = some w → ∀ last : LogCall,
    ∀ st ∈ last.stores w, ∀ a, st.Holds a → w.Holds a := by
  intro claim
  have first : emptyLog.call (.copies (fun _ => 0) (fun _ => 0) 8 99952) =
      some ((LogCall.copies (fun _ => 0) (fun _ => 0) 8 99952).after emptyLog) := by
    unfold Writer.call
    rw [if_pos (by decide)]
  have ran : System.run Writer.call emptyLog [.copies (fun _ => 0) (fun _ => 0) 8 99952] =
      some ((LogCall.copies (fun _ => 0) (fun _ => 0) 8 99952).after emptyLog) := by
    rw [System.run, first]
    rfl
  have inside := claim emptyLog _ rfl _ ran (.casFails (fun _ => 0) 8 8)
  have room := (LogCall.fits (by decide)).mp inside 40 rfl
  exact absurd room (by decide)

end ReadLogUpdate
