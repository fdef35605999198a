import ReadLogUpdate.Rlu.Conflict
import ReadLogUpdate.Harris.Step

/-!
# The RLU lists with any number of threads

`rlu_list_contains`, `rlu_list_add` and `rlu_list_remove` of `hash-list.c` as clients of the library:
each thread runs its call one access at a time, between the steps that all threads take inside
`rlu.c`. A node is an object of the library, `val` in its first word and `p_next` in its second.
-/

namespace ReadLogUpdate.RluList

open Harris (ListT listValMin listValMax)

inductive Word where
  | val (v : Int)
  | ptr (p : Ptr)
  deriving DecidableEq

instance : Inhabited Word := ⟨.val 0⟩

def Word.toVal : Word → Int
  | .val v => v
  | .ptr _ => 0

def Word.toPtr : Word → Ptr
  | .ptr p => p
  | .val _ => .null

def node (v : Int) (next : Ptr) : Nat → Word
  | 0 => .val v
  | 1 => .ptr next
  | _ => default

/-- Where a thread is in its call. `n` is the node that a remove links in place of the one it
takes off, and no pointer in an add. -/
inductive Pc where
  | idle
  | done (op : Harris.Op) (v : Int) (result : Bool)
  /-- `restart` -/
  | readerLock (op : Harris.Op) (v : Int)
  | derefHead (op : Harris.Op) (v : Int)
  | prev (op : Harris.Op) (v : Int)
  | loadNext (op : Harris.Op) (v : Int) (prev : Ptr)
  | loadVal (op : Harris.Op) (v : Int) (prev : Ptr)
  | loadN (v : Int) (prev next : Ptr)
  | takeN (v : Int) (prev next : Ptr)
  | lockPrev (v : Int) (n : Option Ptr) (prev next : Ptr)
  | lockNext (v : Int) (n : Option Ptr) (next : Ptr)
  | locked (v : Int) (n : Option Ptr) (prev : Ptr)
  | malloc (v : Int) (prev next : Ptr)
  | assign (v : Int) (prev new : Ptr) (next : Option Ptr)
  | free (v : Int) (next : Ptr)
  | readerUnlock (op : Harris.Op) (v : Int) (result : Bool)
  | leaving (op : Harris.Op) (v : Int) (result : Bool)
  deriving DecidableEq

structure State where
  rlu : ReadLogUpdate.State Word
  pc : Nat → Pc
  /-- the addresses that `malloc` has returned -/
  used : Nat → Bool
  /-- history: what the nodes held when they were new -/
  born : Nat → Nat → Word

def State.set (s : State) (t : Nat) (rlu : ReadLogUpdate.State Word) (pc : Pc) : State :=
  { s with rlu, pc := Function.update s.pc t pc }

@[simp] theorem State.set_rlu (s : State) (t : Nat) (rlu : ReadLogUpdate.State Word) (pc : Pc) :
    (s.set t rlu pc).rlu = rlu := rfl

@[simp] theorem State.set_used (s : State) (t : Nat) (rlu : ReadLogUpdate.State Word) (pc : Pc) :
    (s.set t rlu pc).used = s.used := rfl

@[simp] theorem State.set_pc (s : State) (t : Nat) (rlu : ReadLogUpdate.State Word) (pc : Pc) :
    (s.set t rlu pc).pc = Function.update s.pc t pc := rfl

/-- What follows the traversal, with `p_next` at a node of value `w`. -/
def found (op : Harris.Op) (v w : Int) (prev next : Ptr) : Pc :=
  match op with
  | .contains => .readerUnlock .contains v (w == v)
  | .add => if w = v then .readerUnlock .add v false else .lockPrev v none prev next
  | .remove => if w = v then .loadN v prev next else .readerUnlock .remove v false

/-- The call of the library that the next step of a thread makes, if it makes one, with the point
that the thread goes to. -/
def request (list : ListT) (rlu : ReadLogUpdate.State Word) (th : Thread Word) :
    Pc → Option (ReadLogUpdate.Op Word × Pc)
  | .readerLock op v => some (.readerLock, .derefHead op v)
  | .derefHead op v => some (.deref (.actual list.pHead), .prev op v)
  | .loadNext op v prev =>
    (rlu.load prev 1).map fun p => (.deref p.toPtr, .loadVal op v prev)
  | .loadN v prev next => (rlu.load next 1).map fun p => (.deref p.toPtr, .takeN v prev next)
  | .lockPrev v n prev next => some (.tryLock prev, .lockNext v n next)
  | .lockNext v n next =>
    match th.pc with
    | .mustAbort => some (.abort, .readerLock (if n.isSome then .remove else .add) v)
    | _ => some (.tryLock next, .locked v n th.ret)
  | .locked v n _ =>
    match th.pc with
    | .mustAbort => some (.abort, .readerLock (if n.isSome then .remove else .add) v)
    | _ => none
  | .assign v (.copy c) new next =>
    some (.store c 1 (.ptr (rlu.forceActual new)), match next with
      | none => .readerUnlock .add v true
      | some p => .free v p)
  | .free v next => some (.free next, .readerUnlock .remove v true)
  | .readerUnlock op v result => some (.readerUnlock, .leaving op v result)
  | _ => none

def local_ (rlu : ReadLogUpdate.State Word) (th : Thread Word) : Pc → Option Pc
  | .prev op v => if th.pc.kind = .inSection then some (.loadNext op v th.ret) else none
  | .loadVal op v prev =>
    if th.pc.kind = .inSection then
      (rlu.load th.ret 0).map fun w =>
        if w.toVal < v then .loadNext op v th.ret else found op v w.toVal prev th.ret
    else none
  | .takeN v prev next =>
    if th.pc.kind = .inSection then some (.lockPrev v (some th.ret) prev next) else none
  | .locked v n prev =>
    if th.pc.kind = .inSection then
      some (match n with
        | none => .malloc v prev th.ret
        | some n => .assign v prev n (some th.ret))
    else none
  | .leaving op v result => if th.pc.kind = .idle then some (.done op v result) else none
  | _ => none

inductive Act where
  /-- a thread starts in `rlu_thread_init` -/
  | threadInit
  /-- thread `t` calls, between the sentinel values -/
  | start (t : Nat) (op : Harris.Op) (v : Int)
  /-- thread `t` takes its next step -/
  | client (t : Nat)
  /-- thread `t` takes its next step inside the library -/
  | lib (t : Nat)
  /-- `rlu_new_node` returns `a`, an address it has not returned before, with a cleared header, and
  the thread stores `val` and `p_next` there -/
  | malloc (t a : Nat)
  /-- thread `t` calls `rlu_thread_finish` between its calls -/
  | finish (t : Nat)

def Pc.val : Pc → Option Int
  | .idle | .done _ _ _ => none
  | .readerLock _ v | .derefHead _ v | .prev _ v | .loadNext _ v _ | .loadVal _ v _ | .loadN v _ _
  | .takeN v _ _ | .lockPrev v _ _ _ | .lockNext v _ _ | .locked v _ _ | .malloc v _ _
  | .assign v _ _ _ | .free v _ | .readerUnlock _ v _ | .leaving _ v _ => some v

def Pc.atRest : Pc → Bool
  | .idle | .done _ _ _ => true
  | _ => false

/-- The step of the library that an action takes, if it takes one. -/
def Act.rlu (list : ListT) (s : State) : Act → Option (ReadLogUpdate.Act Word)
  | .threadInit => some .threadInit
  | .lib t => some (.lib t)
  | .client t => (request list s.rlu (s.rlu.thread t) (s.pc t)).map fun r => .call t r.1
  | .finish t => some (.call t .finish)
  | .start _ _ _ | .malloc _ _ => none

def step (cfg : Config) (list : ListT) (s : State) : Act → Option State
  | .threadInit => (ReadLogUpdate.step cfg s.rlu .threadInit).map fun rlu => { s with rlu }
  | .lib t => (ReadLogUpdate.step cfg s.rlu (.lib t)).map fun rlu => { s with rlu }
  | .start t op v =>
    if (s.pc t).atRest ∧ listValMin < v ∧ v < listValMax then some (s.set t s.rlu (.readerLock op v))
    else none
  | .client t =>
    match request list s.rlu (s.rlu.thread t) (s.pc t) with
    | some (op, pc) =>
      (ReadLogUpdate.step cfg s.rlu (.call t op)).map fun rlu => s.set t rlu pc
    | none => (local_ s.rlu (s.rlu.thread t) (s.pc t)).map fun pc => s.set t s.rlu pc
  | .malloc t a =>
    match s.pc t with
    | .malloc v prev next =>
      if a ≠ 0 ∧ s.used a = false ∧ s.rlu.hdr a = .null then
        let new := node v (s.rlu.forceActual next)
        some {
          rlu := { s.rlu with obj := Function.update s.rlu.obj a new }
          pc := Function.update s.pc t (.assign v prev (.actual a) none)
          used := Function.update s.used a true
          born := Function.update s.born a new }
      else none
    | _ => none
  | .finish t =>
    if (s.pc t).atRest then
      (ReadLogUpdate.step cfg s.rlu (.call t .finish)).map fun rlu => { s with rlu }
    else none

/-- A step of a run from memory in which `malloc` hands out what will be stored there. Nobody reads
a new node before it is linked, so the library runs in it as it does for any client. -/
def foresee (cfg : Config) (list : ListT) (s : State) : Act → Option State
  | .malloc t a =>
    match s.pc t with
    | .malloc v prev next =>
      if a ≠ 0 ∧ s.used a = false ∧ s.rlu.hdr a = .null ∧ s.rlu.obj a 0 = .val v ∧
          s.rlu.obj a 1 = .ptr (s.rlu.forceActual next) then
        some { s.set t s.rlu (.assign v prev (.actual a) none) with
          used := Function.update s.used a true }
      else none
    | _ => none
  | a => step cfg list s a

/-- `rlu_new_list`, with no call yet, in memory with the contents `init`. -/
structure Start (list : ListT) (init : Nat → Nat → Word) (s : State) : Prop where
  rlu : s.rlu = ReadLogUpdate.State.init init
  head : init list.pHead 0 = .val listValMin ∧ init list.pHead 1 = .ptr (.actual list.pMax)
  last : init list.pMax 0 = .val listValMax ∧ init list.pMax 1 = .ptr .null
  pc : s.pc = fun _ => .idle
  used : s.used = fun a => a == list.pHead || a == list.pMax
  born : s.born = init

/-- The steps of the library load and increment `g_rlu_writer_version` at once, and no abort of a
write set meets the slot that it reads too late. -/
def Allowed (list : ListT) (s : State) (a : Act) : Prop :=
  ∀ x ∈ a.rlu list s, VersionAtomic s.rlu x ∧ RightSlot s.rlu x

instance (list : ListT) (s : State) (a : Act) : Decidable (Allowed list s a) :=
  inferInstanceAs (Decidable (∀ x ∈ a.rlu list s, _))

/-- The states that the program reaches from memory with the contents `init`. -/
abbrev Reaches (cfg : Config) (list : ListT) (init : Nat → Nat → Word) (s : State) : Prop :=
  System.Reachable (Start list init) (step cfg list) (Allowed list) s

abbrev Foreseen (cfg : Config) (list : ListT) (init : Nat → Nat → Word) (s : State) : Prop :=
  System.Reachable (Start list init) (foresee cfg list) (Allowed list) s

theorem foresee_rlu {cfg : Config} {list : ListT} {s s' : State} {a : Act}
    (hs : foresee cfg list s a = some s') :
    a.rlu list s = none ∧ s'.rlu = s.rlu ∨
    ∃ x, a.rlu list s = some x ∧ ReadLogUpdate.step cfg s.rlu x = some s'.rlu := by
  cases a with
  | threadInit | lib t =>
    simp only [foresee, step] at hs
    obtain ⟨rlu, stepped, rfl⟩ := Option.map_eq_some_iff.mp hs
    exact .inr ⟨_, rfl, stepped⟩
  | start t op v =>
    simp only [foresee, step] at hs
    split_ifs at hs
    obtain rfl := Option.some.inj hs
    exact .inl ⟨rfl, rfl⟩
  | client t =>
    simp only [foresee, step] at hs
    split at hs
    · rename_i op pc req
      obtain ⟨rlu, stepped, rfl⟩ := Option.map_eq_some_iff.mp hs
      refine .inr ⟨.call t op, ?_, stepped⟩
      unfold Act.rlu
      dsimp only
      rw [req]
      rfl
    · rename_i req
      obtain ⟨pc, -, rfl⟩ := Option.map_eq_some_iff.mp hs
      refine .inl ⟨?_, rfl⟩
      unfold Act.rlu
      dsimp only
      rw [req]
      rfl
  | malloc t a =>
    simp only [foresee] at hs
    split at hs
    · split_ifs at hs
      obtain rfl := Option.some.inj hs
      exact .inl ⟨rfl, rfl⟩
    · cases hs
  | finish t =>
    simp only [foresee, step] at hs
    split_ifs at hs
    obtain ⟨rlu, stepped, rfl⟩ := Option.map_eq_some_iff.mp hs
    exact .inr ⟨_, rfl, stepped⟩

theorem Foreseen.rlu {cfg : Config} {list : ListT} {init : Nat → Nat → Word} {s : State}
    (h : Foreseen cfg list init s) :
    ReachableFrom cfg init (fun s a => VersionAtomic s a ∧ RightSlot s a) s.rlu := by
  induction h with
  | start start => exact .start start.rlu
  | step _ allowed hs ih =>
    rcases foresee_rlu hs with ⟨-, same⟩ | ⟨x, act, stepped⟩
    · rw [same]
      exact ih
    · exact .step ih (allowed x act) stepped

end ReadLogUpdate.RluList
