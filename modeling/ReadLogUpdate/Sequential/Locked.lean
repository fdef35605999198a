import ReadLogUpdate.Rcu.Step
import ReadLogUpdate.Sequential.Calls

/-!
# `pure_list_*` and `rcu_list_*` by one thread

The calls as functions of the memory. A loop takes fuel, and a function without a result has not
come out of one of its loops, waits for a lock or leaves an array.
-/

namespace ReadLogUpdate.Sequential

open Chain

/-! ### `pure_list_*` -/

/-- The nodes; `used` are those from `malloc` to `free`. -/
structure Mem where
  val : Nat → Int
  pNext : Nat → Nat
  used : Nat → Bool

def Mem.malloc (m : Mem) (a : Nat) (v : Int) (n : Nat) : Mem :=
  ⟨Function.update m.val a v, Function.update m.pNext a n, Function.update m.used a true⟩

def Mem.setNext (m : Mem) (a n : Nat) : Mem := { m with pNext := Function.update m.pNext a n }

def Mem.free (m : Mem) (a : Nat) : Mem := { m with used := Function.update m.used a false }

/-- `while (p_next->val < val)`, with `p_prev` and `p_next` at its end. -/
def pureScan (m : Mem) (v : Int) : Nat → Nat → Option (Nat × Nat)
  | 0, _ => none
  | fuel + 1, prev =>
    if m.val (m.pNext prev) < v then pureScan m v fuel (m.pNext prev)
    else some (prev, m.pNext prev)

def pureListContains (list : ListT) (fuel : Nat) (m : Mem) (v : Int) : Option (Bool × Mem) :=
  (pureScan m v fuel list.pHead).map fun p => (decide (m.val p.2 = v), m)

def pureListAdd (list : ListT) (fuel : Nat) (m : Mem) (v : Int) (a : Nat) : Option (Bool × Mem) :=
  (pureScan m v fuel list.pHead).map fun p =>
    if m.val p.2 ≠ v then (true, (m.malloc a v p.2).setNext p.1 a) else (false, m)

def pureListRemove (list : ListT) (fuel : Nat) (m : Mem) (v : Int) : Option (Bool × Mem) :=
  (pureScan m v fuel list.pHead).map fun p =>
    if m.val p.2 = v then (true, (m.setNext p.1 (m.pNext p.2)).free p.2) else (false, m)

def pureList (list : ListT) (fuel : Nat) (m : Mem) (v : Int) (a : Nat) : Op → Option (Bool × Mem)
  | .contains => pureListContains list fuel m v
  | .add => pureListAdd list fuel m v a
  | .remove => pureListRemove list fuel m v

def PureCall (list : ListT) (op : Op) (v : Int) (a : Nat) (m : Mem) (r : Bool) (m' : Mem) : Prop :=
  ∃ fuel, pureList list fuel m v a op = some (r, m')

def Mem.init (list : ListT) : Mem where
  val := (Harris.State.init list).heap.val
  pNext := fun a => ((Harris.State.init list).heap.pNext a).addr
  used := (Harris.State.init list).used

/-! ### `rcu_list_*` -/

open Rcu (maxSpinLocks setBit0)

/-- The threads of `urcu_init`, which thread calls, `URCU_MAX_FREE_PTRS` and the lock of the list. -/
structure UrcuConfig where
  threads : Nat
  id : Nat
  maxFreePtrs : Nat := 1000
  bucket : Nat
  registered : id < threads

/-- The nodes, `time` of every thread, `urcu_spin`, and `free_ptrs` of the thread that calls. -/
structure Urcu where
  mem : Mem
  time : Nat → Nat
  urcuSpin : Nat → Bool
  freePtrs : List Nat

def Urcu.readerLock (u : Urcu) (id : Nat) : Urcu :=
  { u with time := Function.update u.time id ((u.time id + 1) % 2 ^ 64) }

def Urcu.readerUnlock (u : Urcu) (id : Nat) : Urcu :=
  { u with time := Function.update u.time id (setBit0 (u.time id)) }

/-- `urcu_writer_lock`: nobody else would release the lock. -/
def Urcu.writerLock (u : Urcu) (b : Nat) : Option Urcu :=
  if b < maxSpinLocks ∧ u.urcuSpin b = false then
    some { u with urcuSpin := Function.update u.urcuSpin b true }
  else none

def Urcu.writerUnlock (u : Urcu) (b : Nat) : Urcu :=
  { u with urcuSpin := Function.update u.urcuSpin b false }

/-- The inner loop of `urcu_synchronize`, for a thread whose `times` entry is `old`. -/
def urcuWait (time old : Nat) : Nat → Option Unit
  | 0 => none
  | fuel + 1 => if time % 2 = 1 ∨ old < time then some () else urcuWait time old fuel

/-- The second loop of `urcu_synchronize`, over the first `n` threads. -/
def urcuWaitAll (time times : Nat → Nat) (fuel : Nat) : Nat → Option Unit
  | 0 => some ()
  | n + 1 => (urcuWaitAll time times fuel n).bind fun _ =>
      if times n % 2 = 1 then some () else urcuWait (time n) (times n) fuel

def Urcu.synchronize (u : Urcu) (threads fuel : Nat) : Option Unit :=
  urcuWaitAll u.time u.time fuel threads

def Urcu.free (u : Urcu) (cfg : UrcuConfig) (fuel : Nat) (p : Nat) : Option Urcu :=
  let freePtrs := u.freePtrs ++ [p]
  if freePtrs.length = cfg.maxFreePtrs then
    (u.synchronize cfg.threads fuel).map fun _ =>
      { u with mem := freePtrs.foldl Mem.free u.mem, freePtrs := [] }
  else some { u with freePtrs }

/-- The loop of `rcu_list_*`, which breaks at `v >= val`. -/
def rcuScan (m : Mem) (v : Int) : Nat → Nat → Option (Nat × Nat)
  | 0, _ => none
  | fuel + 1, prev =>
    if m.val (m.pNext prev) ≥ v then some (prev, m.pNext prev)
    else rcuScan m v fuel (m.pNext prev)

def rcuListContains (cfg : UrcuConfig) (list : ListT) (fuel : Nat) (u : Urcu) (v : Int) :
    Option (Bool × Urcu) :=
  (rcuScan u.mem v fuel list.pHead).map fun p =>
    (decide (u.mem.val p.2 = v), (u.readerLock cfg.id).readerUnlock cfg.id)

def rcuListAdd (cfg : UrcuConfig) (list : ListT) (fuel : Nat) (u : Urcu) (v : Int) (a : Nat) :
    Option (Bool × Urcu) := do
  let u ← u.writerLock cfg.bucket
  let (prev, next) ← rcuScan u.mem v fuel list.pHead
  if u.mem.val next ≠ v then
    let u := { u with mem := (u.mem.malloc a v next).setNext prev a }
    return (true, u.writerUnlock cfg.bucket)
  else return (false, u.writerUnlock cfg.bucket)

def rcuListRemove (cfg : UrcuConfig) (list : ListT) (fuel : Nat) (u : Urcu) (v : Int) :
    Option (Bool × Urcu) := do
  let u ← u.writerLock cfg.bucket
  let (prev, next) ← rcuScan u.mem v fuel list.pHead
  if u.mem.val next = v then
    let u := { u with mem := u.mem.setNext prev (u.mem.pNext next) }
    let u ← (u.writerUnlock cfg.bucket).free cfg fuel next
    return (true, u)
  else return (false, u.writerUnlock cfg.bucket)

def rcuList (cfg : UrcuConfig) (list : ListT) (fuel : Nat) (u : Urcu) (v : Int) (a : Nat) :
    Op → Option (Bool × Urcu)
  | .contains => rcuListContains cfg list fuel u v
  | .add => rcuListAdd cfg list fuel u v a
  | .remove => rcuListRemove cfg list fuel u v

def RcuCall (cfg : UrcuConfig) (list : ListT) (op : Op) (v : Int) (a : Nat) (u : Urcu) (r : Bool)
    (u' : Urcu) : Prop :=
  ∃ fuel, rcuList cfg list fuel u v a op = some (r, u')

def Urcu.init (list : ListT) : Urcu where
  mem := Mem.init list
  time := fun _ => 1
  urcuSpin := fun _ => false
  freePtrs := []

/-! ### The scans -/

section Scan
variable {m : Mem} {v : Int} {a b : Nat}

/-- The loop stops behind the place of the key, and with enough fuel it does. -/
theorem pureScan_eq (scan : Scan m.pNext m.val v a b) :
    (∃ n, ∀ fuel, n ≤ fuel → pureScan m v fuel a = some (b, m.pNext b)) ∧
      ∀ fuel p, pureScan m v fuel a = some p → p = (b, m.pNext b) := by
  induction scan with
  | here stop =>
    refine ⟨⟨1, fun fuel le => ?_⟩, fun fuel p found => ?_⟩
    · obtain ⟨fuel, rfl⟩ := Nat.exists_eq_add_of_le' le
      exact if_neg stop
    · cases fuel with
      | zero => cases found
      | succ fuel =>
        rw [pureScan, if_neg stop] at found
        exact (Option.some.inj found).symm
  | on below _ ih =>
    obtain ⟨⟨n, enough⟩, exact_⟩ := ih
    refine ⟨⟨n + 1, fun fuel le => ?_⟩, fun fuel p found => ?_⟩
    · obtain ⟨fuel, rfl⟩ := Nat.exists_eq_add_of_le' (Nat.le_trans (Nat.le_add_left 1 n) le)
      rw [pureScan, if_pos below]
      exact enough fuel (by omega)
    · cases fuel with
      | zero => cases found
      | succ fuel =>
        rw [pureScan, if_pos below] at found
        exact exact_ fuel p found

theorem rcuScan_eq_pureScan (fuel a : Nat) : rcuScan m v fuel a = pureScan m v fuel a := by
  induction fuel generalizing a with
  | zero => rfl
  | succ fuel ih =>
    rw [rcuScan, pureScan, ih]
    by_cases below : m.val (m.pNext a) < v
    · rw [if_pos below, if_neg below.not_ge]
    · rw [if_neg below, if_pos (not_lt.mp below)]

end Scan

/-! ### The calls -/

section Pure
variable {ι : Type*} {list : ListT} {lists : ι → ListT} {m : Mem} {S : ι → Finset Int} {v : Int}
  {a b : Nat} {i : ι}

def Mem.Rep (lists : ι → ListT) (m : Mem) (S : ι → Finset Int) : Prop :=
  HoldsAll lists m.pNext m.val m.used S

/-- What a call does once its loop has found `p_prev` and `p_next`. -/
def purePlaced (m : Mem) (v : Int) (a : Nat) (p : Nat × Nat) : Op → Bool × Mem
  | .contains => (decide (m.val p.2 = v), m)
  | .add => if m.val p.2 ≠ v then (true, (m.malloc a v p.2).setNext p.1 a) else (false, m)
  | .remove => if m.val p.2 = v then (true, (m.setNext p.1 (m.pNext p.2)).free p.2) else (false, m)

theorem pureList_eq {fuel : Nat} (op : Op) : pureList list fuel m v a op =
    (pureScan m v fuel list.pHead).map fun p => purePlaced m v a p op := by
  cases op <;> rfl

theorem pureCall_iff (scan : Scan m.pNext m.val v list.pHead b) (op : Op) (r : Bool) (m' : Mem) :
    PureCall list op v a m r m' ↔ purePlaced m v a (b, m.pNext b) op = (r, m') := by
  obtain ⟨⟨n, enough⟩, exact_⟩ := pureScan_eq scan
  constructor
  · rintro ⟨fuel, found⟩
    rw [pureList_eq, Option.map_eq_some_iff] at found
    obtain ⟨p, scanned, placed⟩ := found
    obtain rfl := exact_ fuel p scanned
    exact placed
  · intro placed
    refine ⟨n, ?_⟩
    rw [pureList_eq, enough n le_rfl, Option.map_some, placed]

theorem Mem.free_used (m : Mem) (p c : Nat) :
    (m.free p).used c = if c = p then false else m.used c := Function.update_apply m.used p false c

variable [DecidableEq ι]

/-- What a call does at the place of its key, it does to the set. -/
theorem purePlaced_agrees (rep : m.Rep lists S) (lo : listValMin < v) (hi : v < listValMax)
    (fresh : Fresh m.used a) (place : Place m.pNext m.val (lists i).pHead (lists i).pMax v b) (op : Op) :
    (purePlaced m v a (b, m.pNext b) op).1 = (apply (S i) v op).1 ∧
      (purePlaced m v a (b, m.pNext b) op).2.Rep lists (Function.update S i (apply (S i) v op).2) := by
  have mem := (rep.each i).mem_iff lo hi place
  have same : m.Rep lists (Function.update S i (S i)) := by rwa [Function.update_eq_self]
  by_cases present : m.val (m.pNext b) = v
  · have here : v ∈ S i := mem.mpr present
    cases op with
    | contains => exact ⟨(decide_eq_true present).trans (decide_eq_true here).symm, same⟩
    | add =>
      rw [apply_add_of_mem here, purePlaced, if_neg (not_not.mpr present)]
      exact ⟨rfl, same⟩
    | remove =>
      rw [apply_remove_of_mem here, purePlaced, if_pos present]
      refine ⟨rfl, rep.erase place present hi (fun _ c _ ne => ?_) fun c free => ?_⟩
      · exact Function.update_of_ne ne _ _
      · rw [Mem.free_used]
        split
        · rfl
        · exact free
  · have absent : v ∉ S i := mem.not.mpr present
    cases op with
    | contains => exact ⟨(decide_eq_false present).trans (decide_eq_false absent).symm, same⟩
    | add =>
      rw [apply_add_of_notMem absent, purePlaced, if_pos present]
      exact ⟨rfl, rep.insert fresh place present⟩
    | remove =>
      rw [apply_remove_of_notMem absent, purePlaced, if_neg present]
      exact ⟨rfl, same⟩

theorem pureList_implements (lists : ι → ListT) :
    ImplementsAll AlwaysAll (fun i => PureCall (lists i)) (fun m => Fresh m.used) (Mem.Rep lists) where
  room := fun i _ _ rep => (rep.each i).fresh
  returns := by
    intro i m S op v a rep lo hi fresh _
    obtain ⟨b, scan, -⟩ := (rep.each i).scan lo hi
    exact ⟨_, _, (pureCall_iff scan op _ _).mpr rfl⟩
  agrees := by
    intro i m S op v a r m' rep lo hi fresh _ called
    obtain ⟨b, scan, place⟩ := (rep.each i).scan lo hi
    have agrees := purePlaced_agrees rep lo hi fresh place op
    rw [(pureCall_iff scan op r m').mp called] at agrees
    exact agrees

end Pure

section Rcu
variable {ι : Type*} {cfg : UrcuConfig} {list : ListT} {lists : ι → ListT} {u : Urcu}
  {S : ι → Finset Int} {v : Int} {a b p : Nat} {i : ι}

/-- Between the calls: the nodes on `free_ptrs` are allocated and off the lists. -/
structure Urcu.Rep (lists : ι → ListT) (u : Urcu) (S : ι → Finset Int) : Prop where
  mem : u.mem.Rep lists S
  quiet : ∀ i, u.time i % 2 = 1
  unlocked : ∀ b, u.urcuSpin b = false
  pending : ∀ p ∈ u.freePtrs, u.mem.used p = true ∧
    ∀ i, ¬ Path u.mem.pNext (lists i).pMax (lists i).pHead p

theorem Urcu.Rep.synchronize (quiet : ∀ i, u.time i % 2 = 1) (fuel : Nat) :
    u.synchronize cfg.threads fuel = some () := by
  have all (n : Nat) : urcuWaitAll u.time u.time fuel n = some () := by
    induction n with
    | zero => rfl
    | succ n ih => rw [urcuWaitAll, ih, Option.bind_some, if_pos (quiet n)]
  exact all cfg.threads

theorem Mem.frees (ps : List Nat) (m : Mem) : (ps.foldl Mem.free m).val = m.val ∧
    (ps.foldl Mem.free m).pNext = m.pNext ∧
    ∀ c, (ps.foldl Mem.free m).used c = if c ∈ ps then false else m.used c := by
  induction ps generalizing m with
  | nil =>
    refine ⟨rfl, rfl, fun c => ?_⟩
    rw [if_neg (List.not_mem_nil (a := c))]
    rfl
  | cons p ps ih =>
    obtain ⟨val, next, used⟩ := ih (m.free p)
    refine ⟨val, next, fun c => ?_⟩
    rw [List.foldl_cons, used c, Mem.free_used]
    by_cases later : c ∈ ps
    · rw [if_pos later, if_pos (List.mem_cons_of_mem _ later)]
    · rw [if_neg later]
      by_cases eq : c = p
      · rw [if_pos eq, if_pos (eq ▸ List.mem_cons_self)]
      · rw [if_neg eq, if_neg fun mem => (List.mem_cons.mp mem).elim eq later]

theorem setBit0_odd (x : Nat) : setBit0 x % 2 = 1 := by
  unfold setBit0
  omega

/-- A section that is open in between leaves no trace but in the time of its thread. -/
theorem Urcu.Rep.section (rep : u.Rep lists S) (id : Nat) :
    ((u.readerLock id).readerUnlock id).Rep lists S := by
  refine ⟨rep.mem, fun i => ?_, rep.unlocked, rep.pending⟩
  show (Function.update _ id _ : Nat → Nat) i % 2 = 1
  by_cases eq : i = id
  · rw [eq, Function.update_self]
    exact setBit0_odd _
  · rw [Function.update_of_ne eq]
    show (Function.update u.time id _ : Nat → Nat) i % 2 = 1
    rw [Function.update_of_ne eq]
    exact rep.quiet i

theorem Urcu.writerUnlock_lock (cfg : UrcuConfig) (unlocked : ∀ b, u.urcuSpin b = false) (m : Mem) :
    ({ u with mem := m, urcuSpin := Function.update u.urcuSpin cfg.bucket true } : Urcu).writerUnlock
      cfg.bucket = { u with mem := m } := by
  unfold Urcu.writerUnlock
  rw [Function.update_idem, ← unlocked cfg.bucket, Function.update_eq_self]

theorem rcuListAdd_eq (inside : cfg.bucket < maxSpinLocks) (unlocked : ∀ b, u.urcuSpin b = false)
    (fuel : Nat) :
    rcuListAdd cfg list fuel u v a = (pureListAdd list fuel u.mem v a).map fun e =>
      (e.1, { u with mem := e.2 }) := by
  have lock : u.writerLock cfg.bucket =
      some { u with urcuSpin := Function.update u.urcuSpin cfg.bucket true } :=
    if_pos ⟨inside, unlocked _⟩
  simp only [rcuListAdd, lock, Option.bind_eq_bind, Option.bind_some, rcuScan_eq_pureScan, pureListAdd]
  cases pureScan u.mem v fuel list.pHead with
  | none => rfl
  | some p =>
    simp only [Option.bind_some, Option.map_some]
    split
    · exact congrArg (fun u => some (true, u)) (Urcu.writerUnlock_lock cfg unlocked _)
    · exact congrArg (fun u => some (false, u)) (Urcu.writerUnlock_lock cfg unlocked _)

theorem rcuListContains_eq (fuel : Nat) : rcuListContains cfg list fuel u v =
    (pureListContains list fuel u.mem v).map fun e =>
      (e.1, (u.readerLock cfg.id).readerUnlock cfg.id) := by
  simp only [rcuListContains, rcuScan_eq_pureScan, pureListContains, Option.map_map]
  rfl

theorem rcuListRemove_eq (inside : cfg.bucket < maxSpinLocks) (unlocked : ∀ b, u.urcuSpin b = false)
    (fuel : Nat) :
    rcuListRemove cfg list fuel u v = (pureScan u.mem v fuel list.pHead).bind fun p =>
      if u.mem.val p.2 = v then
        (({ u with mem := u.mem.setNext p.1 (u.mem.pNext p.2) } : Urcu).free cfg fuel p.2).map fun u =>
          (true, u)
      else some (false, u) := by
  have lock : u.writerLock cfg.bucket =
      some { u with urcuSpin := Function.update u.urcuSpin cfg.bucket true } :=
    if_pos ⟨inside, unlocked _⟩
  simp only [rcuListRemove, lock, Option.bind_eq_bind, Option.bind_some, rcuScan_eq_pureScan]
  cases pureScan u.mem v fuel list.pHead with
  | none => rfl
  | some p =>
    simp only [Option.bind_some]
    split
    · have released := Urcu.writerUnlock_lock cfg unlocked (u.mem.setNext p.1 (u.mem.pNext p.2))
      rw [released, Option.map_eq_bind]
      rfl
    · exact congrArg (fun u => some (false, u)) (Urcu.writerUnlock_lock cfg unlocked _)

variable [DecidableEq ι]

theorem Urcu.Rep.freeNode (rep : u.Rep lists S)
    (place : Place u.mem.pNext u.mem.val (lists i).pHead (lists i).pMax v b)
    (present : u.mem.val (u.mem.pNext b) = v) (hi : v < listValMax) (cfg : UrcuConfig) (fuel : Nat) :
    ∃ u', ({ u with mem := u.mem.setNext b (u.mem.pNext (u.mem.pNext b)) } : Urcu).free cfg fuel
      (u.mem.pNext b) = some u' ∧ u'.Rep lists (Function.update S i ((S i).erase v)) := by
  have here := (rep.mem.each i).lists.reached_next place.reached place.outer
  have pending (p : Nat) (mem : p ∈ u.freePtrs ++ [u.mem.pNext b]) : u.mem.used p = true ∧ ∀ j,
      ¬ Path (Function.update u.mem.pNext b (u.mem.pNext (u.mem.pNext b))) (lists j).pMax
        (lists j).pHead p := by
    rcases List.mem_append.mp mem with mem | mem
    · obtain ⟨used, off⟩ := rep.pending p mem
      exact ⟨used, fun j path => off j (HoldsAll.erase_reached rep.mem place present hi path)⟩
    · obtain rfl := List.mem_singleton.mp mem
      exact ⟨(rep.mem.each i).allocated _ here, HoldsAll.erase_gone rep.mem place present hi⟩
  simp only [Urcu.free]
  by_cases full : (u.freePtrs ++ [u.mem.pNext b]).length = cfg.maxFreePtrs
  · rw [if_pos full]
    obtain ⟨val, next, used⟩ := Mem.frees (u.freePtrs ++ [u.mem.pNext b])
      (u.mem.setNext b (u.mem.pNext (u.mem.pNext b)))
    refine ⟨{ u with
      mem := (u.freePtrs ++ [u.mem.pNext b]).foldl Mem.free
        (u.mem.setNext b (u.mem.pNext (u.mem.pNext b)))
      freePtrs := [] }, ?_, ?_, rep.quiet, rep.unlocked, ?_⟩
    · have through : ({ u with mem := u.mem.setNext b (u.mem.pNext (u.mem.pNext b)) } : Urcu).synchronize
          cfg.threads fuel = some () := Urcu.Rep.synchronize rep.quiet fuel
      rw [through]
      rfl
    · show HoldsAll lists _ _ _ _
      rw [val, next]
      refine HoldsAll.erase rep.mem place present hi (fun j c path ne => ?_) fun c free => ?_
      · rw [used c]
        refine if_neg fun mem => ?_
        rcases List.mem_append.mp mem with mem | mem
        · exact (rep.pending c mem).2 j path
        · exact ne (List.mem_singleton.mp mem)
      · rw [used c]
        split
        · rfl
        · exact free
    · intro p mem
      exact absurd mem List.not_mem_nil
  · rw [if_neg full]
    exact ⟨{ u with
      mem := u.mem.setNext b (u.mem.pNext (u.mem.pNext b))
      freePtrs := u.freePtrs ++ [u.mem.pNext b] }, rfl,
      HoldsAll.erase rep.mem place present hi (fun _ _ _ _ => rfl) fun _ free => free, rep.quiet,
      rep.unlocked, pending⟩

/-- What a call of `rcu_list_*` does, it does to the set. -/
theorem rcuCall_placed (rep : u.Rep lists S) (lo : listValMin < v) (hi : v < listValMax)
    (fresh : Fresh u.mem.used a) (op : Op) (inside : op ≠ .contains → cfg.bucket < maxSpinLocks) :
    (∃ r u', RcuCall cfg (lists i) op v a u r u') ∧ ∀ r u', RcuCall cfg (lists i) op v a u r u' →
      r = (apply (S i) v op).1 ∧ u'.Rep lists (Function.update S i (apply (S i) v op).2) := by
  obtain ⟨b, scan, place⟩ := (rep.mem.each i).scan lo hi
  obtain ⟨⟨n, enough⟩, exact_⟩ := pureScan_eq scan
  have agrees (op : Op) := purePlaced_agrees rep.mem lo hi fresh place op
  cases op with
  | contains =>
    have agrees := agrees .contains
    refine ⟨⟨decide (u.mem.val (u.mem.pNext b) = v), (u.readerLock cfg.id).readerUnlock cfg.id, n, ?_⟩, ?_⟩
    · show rcuListContains cfg (lists i) n u v = some (decide (u.mem.val (u.mem.pNext b) = v), _)
      rw [rcuListContains_eq, pureListContains, enough n le_rfl]
      rfl
    · rintro r u' ⟨fuel, found⟩
      change rcuListContains cfg (lists i) fuel u v = _ at found
      rw [rcuListContains_eq, pureListContains, Option.map_map, Option.map_eq_some_iff] at found
      obtain ⟨p, scanned, eq⟩ := found
      obtain rfl := exact_ fuel p scanned
      cases eq
      refine ⟨agrees.1, ?_⟩
      rw [show (apply (S i) v .contains).2 = S i from rfl, Function.update_eq_self]
      exact rep.section cfg.id
  | add =>
    have agrees := agrees .add
    have inside := inside (by rintro ⟨⟩)
    refine ⟨⟨(purePlaced u.mem v a (b, u.mem.pNext b) .add).1,
      { u with mem := (purePlaced u.mem v a (b, u.mem.pNext b) .add).2 }, n, ?_⟩, ?_⟩
    · show rcuListAdd cfg (lists i) n u v a = _
      rw [rcuListAdd_eq inside rep.unlocked, pureListAdd, enough n le_rfl]
      rfl
    · rintro r u' ⟨fuel, found⟩
      change rcuListAdd cfg (lists i) fuel u v a = _ at found
      rw [rcuListAdd_eq inside rep.unlocked, pureListAdd, Option.map_map, Option.map_eq_some_iff] at found
      obtain ⟨p, scanned, eq⟩ := found
      obtain rfl := exact_ fuel p scanned
      cases eq
      refine ⟨agrees.1, agrees.2, rep.quiet, rep.unlocked, fun p mem => ?_⟩
      obtain ⟨used, off⟩ := rep.pending p mem
      show (purePlaced u.mem v a (b, u.mem.pNext b) .add).2.used p = true ∧ ∀ j,
        ¬ Path (purePlaced u.mem v a (b, u.mem.pNext b) .add).2.pNext (lists j).pMax (lists j).pHead p
      have ne : p ≠ a := by
        rintro rfl
        rw [fresh.2] at used
        cases used
      simp only [purePlaced]
      split
      · refine ⟨(Function.update_of_ne ne _ _).trans used, fun j path => ?_⟩
        rcases HoldsAll.insert_reached rep.mem fresh place path with ⟨new, -⟩ | old
        · exact ne new
        · exact off j old
      · exact ⟨used, off⟩
  | remove =>
    have inside := inside (by rintro ⟨⟩)
    have mem := (rep.mem.each i).mem_iff lo hi place
    by_cases present : u.mem.val (u.mem.pNext b) = v
    · have eq (fuel : Nat) := rep.freeNode place present hi cfg fuel
      rw [apply_remove_of_mem (mem.mpr present)]
      refine ⟨?_, ?_⟩
      · obtain ⟨u', freed, -⟩ := eq n
        refine ⟨true, u', n, ?_⟩
        show rcuListRemove cfg (lists i) n u v = _
        rw [rcuListRemove_eq inside rep.unlocked, enough n le_rfl, Option.bind_some, if_pos present, freed]
        rfl
      · rintro r u' ⟨fuel, found⟩
        change rcuListRemove cfg (lists i) fuel u v = _ at found
        rw [rcuListRemove_eq inside rep.unlocked, Option.bind_eq_some_iff] at found
        obtain ⟨p, scanned, found⟩ := found
        obtain rfl := exact_ fuel p scanned
        obtain ⟨u₁, freed, rep'⟩ := eq fuel
        rw [if_pos present, freed] at found
        cases found
        exact ⟨rfl, rep'⟩
    · rw [apply_remove_of_notMem (mem.not.mpr present), Function.update_eq_self]
      refine ⟨⟨false, u, n, ?_⟩, ?_⟩
      · show rcuListRemove cfg (lists i) n u v = _
        rw [rcuListRemove_eq inside rep.unlocked, enough n le_rfl, Option.bind_some, if_neg present]
      · rintro r u' ⟨fuel, found⟩
        change rcuListRemove cfg (lists i) fuel u v = _ at found
        rw [rcuListRemove_eq inside rep.unlocked, Option.bind_eq_some_iff] at found
        obtain ⟨p, scanned, found⟩ := found
        obtain rfl := exact_ fuel p scanned
        rw [if_neg present] at found
        cases found
        exact ⟨rfl, rep⟩

def LockInside (cfg : ι → UrcuConfig) (i : ι) (op : Op) (_ : Int) (_ : Urcu) : Prop :=
  op ≠ .contains → (cfg i).bucket < maxSpinLocks

theorem rcuList_implements (cfg : ι → UrcuConfig) (lists : ι → ListT) :
    ImplementsAll (LockInside cfg) (fun i => RcuCall (cfg i) (lists i)) (fun u => Fresh u.mem.used)
      (Urcu.Rep lists) where
  room := fun i _ _ rep => (rep.mem.each i).fresh
  returns := fun _ _ _ op _ _ rep lo hi fresh inside => (rcuCall_placed rep lo hi fresh op inside).1
  agrees := fun _ _ _ op _ _ r u' rep lo hi fresh inside =>
    (rcuCall_placed rep lo hi fresh op inside).2 r u'

end Rcu

end ReadLogUpdate.Sequential
