import Mathlib.Data.Int.ModEq
import ReadLogUpdate.System
import ReadLogUpdate.Harris.Step

/-!
# The hash list over `new-urcu.c`

`rcu_list_contains`, `rcu_list_add` and `rcu_list_remove` with the calls of `new-urcu.c` they make,
as steps with one access to shared memory. A freed node may be allocated again. The spin locks of
`pthread` are taken to be mutual exclusion: a lock is held by one thread or free.
-/

namespace ReadLogUpdate.Rcu

open Harris (listValMin listValMax)

def maxSpinLocks : Nat := 10000

/-- The threads of `urcu_init`, and `URCU_MAX_FREE_PTRS`. -/
structure Config where
  threads : Nat
  maxFreePtrs : Nat := 1000

/-- `hash_list_t` as `rcu_new_hash_list` builds it, with the addresses of the sentinels. -/
structure HashList where
  nBuckets : Nat
  pos : 1 ≤ nBuckets
  le : nBuckets ≤ maxSpinLocks
  pHead : Nat → Nat
  pMax : Nat → Nat
  /-- the bucket of a sentinel -/
  bucket : Nat → Option Nat
  bucket_iff : ∀ a b, bucket a = some b ↔ b < nBuckets ∧ (a = pHead b ∨ a = pMax b)
  ne : ∀ b, b < nBuckets → pHead b ≠ pMax b
  nonnull : bucket 0 = none

def HashList.hash (list : HashList) (v : Int) : Nat := v.toNat % list.nBuckets

inductive Op where
  | contains | add | remove
  deriving DecidableEq

/-- The control point of a thread with the locals `p_prev`, `p_next`, and `n` or `p_new_node`. -/
inductive Pc where
  | idle
  | done (op : Op) (v : Int) (result : Bool)
  | readerLock (v : Int)
  | writerLock (op : Op) (v : Int)
  | loadNext (op : Op) (v : Int) (prev : Nat)
  | loadVal (op : Op) (v : Int) (prev next : Nat)
  | readerUnlock (v : Int) (prev next : Nat) (result : Bool)
  | malloc (v : Int) (prev next : Nat)
  | assign (v : Int) (prev next new : Nat)
  | testVal (v : Int) (prev next : Nat)
  | loadN (v : Int) (prev next : Nat)
  | unlink (v : Int) (prev next n : Nat)
  | writerUnlock (op : Op) (v : Int) (prev next : Nat) (n : Option Nat) (result : Bool)
  | urcuFree (v : Int) (p : Nat)
  | readTimes (v : Int) (i : Nat)
  | wait (v : Int) (i : Nat)
  | free (v : Int) (k : Nat)
  deriving DecidableEq

/-- A thread with its `free_ptrs`, of length `f_size`, and its `times`. -/
structure Thread where
  pc : Pc
  freePtrs : List Nat
  times : Nat → Nat

structure Shared where
  val : Nat → Int
  pNext : Nat → Nat
  /-- from `malloc` to `free` -/
  used : Nat → Bool
  /-- `urcu_table[i]->time` -/
  time : Nat → Nat
  /-- `urcu_spin`, with the thread that holds the lock -/
  urcuSpin : Nat → Option Nat
  /-- history: the bucket that a node is linked in -/
  home : Nat → Option Nat
  /-- history: the sections that were open when a node was unlinked and still are -/
  old : Nat → Nat → Bool

structure State where
  mem : Shared
  thread : Nat → Thread

def setBit0 (x : Nat) : Nat := x / 2 * 2 + 1

/-- A section is open: `time` is even. -/
def Shared.inside (m : Shared) (r : Nat) : Bool := m.time r % 2 == 0

def Shared.setNext (m : Shared) (a n : Nat) : Shared :=
  { m with pNext := Function.update m.pNext a n }

def Shared.readerLock (m : Shared) (t : Nat) : Shared :=
  { m with time := Function.update m.time t ((m.time t + 1) % 2 ^ 64) }

def Shared.readerUnlock (m : Shared) (t : Nat) : Shared :=
  { m with
    time := Function.update m.time t (setBit0 (m.time t))
    old := fun a r => if r = t then false else m.old a r }

def Shared.link (m : Shared) (b prev new : Nat) : Shared :=
  { m.setNext prev new with home := Function.update m.home new (some b) }

/-- `p_prev->p_next = n`, which takes the node `next` off its bucket -/
def Shared.unlink (m : Shared) (prev next n : Nat) : Shared :=
  { m.setNext prev n with
    home := Function.update m.home next none
    old := Function.update m.old next m.inside }

def Shared.malloc (m : Shared) (a : Nat) (v : Int) (n : Nat) : Shared :=
  { m with
    val := Function.update m.val a v
    pNext := Function.update m.pNext a n
    used := Function.update m.used a true }

def Shared.release (m : Shared) (a : Nat) : Shared :=
  { m with used := Function.update m.used a false }

def Shared.setSpin (m : Shared) (b : Nat) (o : Option Nat) : Shared :=
  { m with urcuSpin := Function.update m.urcuSpin b o }

def Thread.go (th : Thread) (pc : Pc) : Thread := { th with pc }

/-- Where the scan leads when `p_node->val` is not below the key. -/
def found (v : Int) (prev next : Nat) (w : Int) : Op → Pc
  | .contains => .readerUnlock v prev next (w = v)
  | .add => if w ≠ v then .malloc v prev next else .writerUnlock .add v prev next none false
  | .remove => .testVal v prev next

def unlocked (v : Int) (next : Nat) (result : Bool) : Op → Pc
  | .remove => if result then .urcuFree v next else .done .remove v false
  | op => .done op v result

/-- The next step of thread `t`; `none` where it is at rest, waits for a lock, or calls `malloc`. -/
def libStep (cfg : Config) (list : HashList) (m : Shared) (t : Nat) (th : Thread) :
    Option (Shared × Thread) :=
  match th.pc with
  | .readerLock v => some (m.readerLock t, th.go (.loadNext .contains v (list.pHead (list.hash v))))
  | .writerLock op v =>
    if m.urcuSpin (list.hash v) = none then
      some (m.setSpin (list.hash v) (some t), th.go (.loadNext op v (list.pHead (list.hash v))))
    else none
  | .loadNext op v prev => some (m, th.go (.loadVal op v prev (m.pNext prev)))
  | .loadVal op v prev next =>
    if m.val next < v then some (m, th.go (.loadNext op v next))
    else some (m, th.go (found v prev next (m.val next) op))
  | .readerUnlock v _ _ result => some (m.readerUnlock t, th.go (.done .contains v result))
  | .assign v prev next new =>
    some (m.link (list.hash v) prev new, th.go (.writerUnlock .add v prev next (some new) true))
  | .testVal v prev next =>
    if m.val next = v then some (m, th.go (.loadN v prev next))
    else some (m, th.go (.writerUnlock .remove v prev next none false))
  | .loadN v prev next => some (m, th.go (.unlink v prev next (m.pNext next)))
  | .unlink v prev next n =>
    some (m.unlink prev next n, th.go (.writerUnlock .remove v prev next (some n) true))
  | .writerUnlock op v _ next _ result =>
    some (m.setSpin (list.hash v) none, th.go (unlocked v next result op))
  | .urcuFree v p =>
    let freePtrs := th.freePtrs ++ [p]
    -- `urcu_table[i]` belongs to the thread but for its `time`
    if freePtrs.length = cfg.maxFreePtrs then some (m, { th with freePtrs, pc := .readTimes v 0 })
    else some (m, { th with freePtrs, pc := .done .remove v true })
  | .readTimes v i =>
    if i < cfg.threads then
      some (m, { th with times := Function.update th.times i (m.time i), pc := .readTimes v (i + 1) })
    else some (m, th.go (.wait v 0))
  | .wait v i =>
    if i < cfg.threads then
      if th.times i % 2 = 1 ∨ m.time i % 2 = 1 ∨ th.times i < m.time i then
        some (m, th.go (.wait v (i + 1)))
      else some (m, th)
    else some (m, th.go (.free v 0))
  | .free v k =>
    match th.freePtrs[k]? with
    | some p => some (m.release p, th.go (.free v (k + 1)))
    | none => some (m, { th with freePtrs := [], pc := .done .remove v true })
  | .idle | .done _ _ _ | .malloc _ _ _ => none

inductive Act where
  /-- thread `t` calls with a key -/
  | call (t : Nat) (op : Op) (v : Int)
  /-- thread `t` takes its next step -/
  | lib (t : Nat)
  /-- `malloc` returns `a` to thread `t` -/
  | malloc (t a : Nat)

def Pc.atRest : Pc → Bool
  | .idle | .done _ _ _ => true
  | _ => false

def enter (v : Int) : Op → Pc
  | .contains => .readerLock v
  | op => .writerLock op v

def State.set (s : State) (t : Nat) (e : Shared × Thread) : State where
  mem := e.1
  thread := Function.update s.thread t e.2

def step (cfg : Config) (list : HashList) (s : State) : Act → Option State
  | .call t op v =>
    if t < cfg.threads ∧ (s.thread t).pc.atRest ∧ 0 ≤ v ∧ v < listValMax then
      some (s.set t (s.mem, (s.thread t).go (enter v op)))
    else none
  | .lib t => (libStep cfg list s.mem t (s.thread t)).map (s.set t)
  | .malloc t a =>
    match (s.thread t).pc with
    | .malloc v prev next =>
      if a ≠ 0 ∧ s.mem.used a = false then
        some (s.set t (s.mem.malloc a v next, (s.thread t).go (.assign v prev next a)))
      else none
    | _ => none

/-- After `urcu_init` and `rcu_new_hash_list`, with every thread registered and no call yet. -/
def State.init (list : HashList) : State where
  mem := {
    val := fun a => match list.bucket a with
      | some b => if a = list.pHead b then listValMin else listValMax
      | none => 0
    pNext := fun a => match list.bucket a with
      | some b => if a = list.pHead b then list.pMax b else 0
      | none => 0
    used := fun a => (list.bucket a).isSome
    time := fun _ => 1
    urcuSpin := fun _ => none
    home := list.bucket
    old := fun _ _ => false }
  thread := fun _ => ⟨.idle, [], fun _ => 0⟩

/-! ### What the threads hold -/

def Pc.reading : Pc → Bool
  | .loadNext .contains _ _ | .loadVal .contains _ _ _ | .readerUnlock _ _ _ _ => true
  | _ => false

def Pc.locked (list : HashList) : Pc → Option Nat
  | .loadNext .contains _ _ | .loadVal .contains _ _ _ => none
  | .loadNext _ v _ | .loadVal _ v _ _ | .malloc v _ _ | .assign v _ _ _ | .testVal v _ _
  | .loadN v _ _ | .unlink v _ _ _ | .writerUnlock _ v _ _ _ _ => some (list.hash v)
  | _ => none

/-- The node pointers in the locals of a section or under a bucket lock. -/
def Pc.holds : Pc → List Nat
  | .loadNext _ _ prev => [prev]
  | .loadVal _ _ prev next | .readerUnlock _ prev next _ | .malloc _ prev next
  | .testVal _ prev next | .loadN _ prev next => [prev, next]
  | .assign _ prev next new => [prev, next, new]
  | .unlink _ prev next n => [prev, next, n]
  | .writerUnlock _ _ prev next n _ => prev :: next :: n.toList
  | _ => []

def State.Releases (s : State) (t p : Nat) : Prop :=
  ∃ v k, (s.thread t).pc = .free v k ∧ (s.thread t).freePtrs[k]? = some p

def Shared.Reaches (m : Shared) : Nat → Nat → Prop :=
  Relation.ReflTransGen fun a b => a ≠ 0 ∧ m.pNext a = b

end ReadLogUpdate.Rcu
