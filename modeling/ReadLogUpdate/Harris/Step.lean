import Mathlib.Data.Set.Basic
import ReadLogUpdate.System
import ReadLogUpdate.Chain

/-!
# The lock-free lists of `hash-list.c`

`harris_list_search`, `hp_harris_list_search` and the three calls over each, as steps with one
access to a shared word. Nodes are never freed. Hazard pointers only record addresses that nothing
reads, so `HP_INIT` and its companions take no step.
-/

namespace ReadLogUpdate.Harris

def listValMin : Int := -2 ^ 31

def listValMax : Int := 2 ^ 31 - 1

/-- A word that holds a node address: node addresses are even, and bit 0 is the mark. -/
structure Ref where
  addr : Nat
  marked : Bool
  deriving DecidableEq

def null : Ref := ⟨0, false⟩

def isMarkedRef (r : Ref) : Bool := r.marked

def getUnmarkedRef (r : Ref) : Nat := r.addr

def getMarkedRef (r : Ref) : Ref := ⟨r.addr, true⟩

def ref (a : Nat) : Ref := ⟨a, false⟩

structure Heap where
  val : Nat → Int
  pNext : Nat → Ref

def Heap.setNext (h : Heap) (a : Nat) (r : Ref) : Heap :=
  { h with pNext := Function.update h.pNext a r }

/-- `list_t` as `pure_new_list` builds it, with the address of the max sentinel. -/
structure ListT where
  pHead : Nat
  pMax : Nat
  head_ne : pHead ≠ 0
  max_ne : pMax ≠ 0
  ne : pHead ≠ pMax

/-! ### The search -/

inductive Variant where
  | harris | hpHarris
  deriving DecidableEq

/-- `*left_node`, `my_left_node` of `hp_harris_list_search`, `left_node_next`, and `t`, which is
`right_node` after the scan. -/
structure Locals where
  leftNode : Nat
  myLeftNode : Nat
  leftNodeNext : Nat
  t : Nat
  deriving DecidableEq

inductive SearchPc where
  | start (l : Locals)
  | checkNext (l : Locals)
  | readNext (l : Locals)
  | cas (l : Locals)
  | testNull (l : Locals)
  | testMark (l : Locals)
  deriving DecidableEq

/-- The head of the scan loop after `t_next` is read, with the step of `t`. -/
def Locals.advance (x : Variant) (l : Locals) (tNext : Ref) : Locals :=
  if isMarkedRef tNext then { l with t := getUnmarkedRef tNext }
  else
    match x with
    | .harris => { l with leftNode := l.t, leftNodeNext := tNext.addr, t := getUnmarkedRef tNext }
    | .hpHarris => { l with myLeftNode := l.t, leftNodeNext := tNext.addr, t := getUnmarkedRef tNext }

/-- What follows the scan: the nodes are adjacent, or the marked ones between them are removed. -/
def Locals.scanned (l : Locals) : SearchPc := if l.leftNodeNext = l.t then .testNull l else .cas l

/-- `*left_node` at the return. -/
def Locals.returned (x : Variant) (l : Locals) : Locals :=
  match x with
  | .harris => l
  | .hpHarris => { l with leftNode := l.myLeftNode }

def searchStep (x : Variant) (list : ListT) (v : Int) (h : Heap) :
    SearchPc → Heap × (SearchPc ⊕ Locals)
  | .start l =>
    let l := { l with leftNodeNext := list.pHead, t := list.pHead }
    (h, .inl (.checkNext (l.advance x (h.pNext list.pHead))))
  | .checkNext l => if h.pNext l.t = null then (h, .inl l.scanned) else (h, .inl (.readNext l))
  | .readNext l =>
    if isMarkedRef (h.pNext l.t) ∨ h.val l.t < v then
      (h, .inl (.checkNext (l.advance x (h.pNext l.t))))
    else (h, .inl l.scanned)
  | .cas l =>
    -- also in `hp_harris_list_search` the address is that of `(*left_node)->p_next`
    if h.pNext l.leftNode = ref l.leftNodeNext then
      (h.setNext l.leftNode (ref l.t), .inl (.testNull l))
    else (h, .inl (.start l))
  | .testNull l => if h.pNext l.t = null then (h, .inr (l.returned x)) else (h, .inl (.testMark l))
  | .testMark l =>
    if isMarkedRef (h.pNext l.t) then (h, .inl (.start l)) else (h, .inr (l.returned x))

/-- The locals at the call of a search with `*left_node = left`. -/
def Locals.enter (list : ListT) (left : Nat) : Locals := ⟨left, left, list.pHead, list.pHead⟩

/-! ### The calls -/

inductive Op where
  | contains | add | remove
  deriving DecidableEq

/-- Who searches: a call, or the end of a remove whose own unlink failed. -/
inductive Caller where
  | call (op : Op)
  | cleanup
  deriving DecidableEq

/-- The control point of a thread; `done` is idle after a call that returned. -/
inductive Pc where
  | idle
  | done (op : Op) (v : Int) (result : Bool)
  | search (k : Caller) (v : Int) (pc : SearchPc)
  | containsTest (v : Int) (right : Nat)
  | malloc (v : Int) (left right : Nat)
  | insert (v : Int) (left right new : Nat)
  | loadNext (v : Int) (left right : Nat)
  | mark (v : Int) (left right : Nat) (next : Ref)
  | unlink (v : Int) (left right : Nat) (next : Ref)
  deriving DecidableEq

structure State where
  heap : Heap
  /-- the addresses that `malloc` has returned -/
  used : Nat → Bool
  /-- history: the nodes that have been linked into the list -/
  linked : Nat → Bool
  thread : Nat → Pc

/-- The last search of a remove is `harris_list_search` in both variants. -/
def Caller.variant (x : Variant) : Caller → Variant
  | .call _ => x
  | .cleanup => .harris

/-- The next turn of the loop of an add or a remove: the `hp` calls reset `left_node`. -/
def again (x : Variant) (list : ListT) (op : Op) (v : Int) (left : Nat) : Pc :=
  match x with
  | .harris => .search (.call op) v (.start (.enter list left))
  | .hpHarris => .search (.call op) v (.start (.enter list list.pHead))

def afterSearch (h : Heap) (v : Int) (l : Locals) : Caller → Pc
  | .call .contains => .containsTest v l.t
  | .call .add => if h.val l.t = v then .done .add v false else .malloc v l.leftNode l.t
  | .call .remove => if h.val l.t ≠ v then .done .remove v false else .loadNext v l.leftNode l.t
  | .cleanup => .done .remove v true

/-- The heap, the node it links, and the control point after the next step of a thread. -/
def libStep (x : Variant) (list : ListT) (h : Heap) : Pc → Option (Heap × Option Nat × Pc)
  | .search k v pc =>
    match searchStep (k.variant x) list v h pc with
    | (h', .inl pc') => some (h', none, .search k v pc')
    | (h', .inr l) => some (h', none, afterSearch h v l k)
  | .containsTest v right =>
    some (h, none, .done .contains v (!(h.pNext right = null || h.val right ≠ v)))
  | .insert v left right new =>
    if h.pNext left = ref right then some (h.setNext left (ref new), some new, .done .add v true)
    else some (h, none, again x list .add v left)
  | .loadNext v left right =>
    if isMarkedRef (h.pNext right) then some (h, none, again x list .remove v left)
    else some (h, none, .mark v left right (h.pNext right))
  | .mark v left right next =>
    if h.pNext right = next then
      some (h.setNext right (getMarkedRef next), none, .unlink v left right next)
    else some (h, none, again x list .remove v left)
  | .unlink v left right next =>
    if h.pNext left = ref right then some (h.setNext left next, none, .done .remove v true)
    else some (h, none, .search .cleanup v (.start (.enter list left)))
  | .idle | .done _ _ _ | .malloc _ _ _ => none

inductive Act where
  /-- thread `t` calls with a key -/
  | call (t : Nat) (op : Op) (v : Int)
  /-- thread `t` takes its next step -/
  | lib (t : Nat)
  /-- `malloc` returns `a` to thread `t`, which fills the node in -/
  | malloc (t a : Nat)

def Pc.atRest : Pc → Bool
  | .idle | .done _ _ _ => true
  | _ => false

def step (x : Variant) (list : ListT) (s : State) : Act → Option State
  | .call t op v =>
    if (s.thread t).atRest ∧ listValMin < v ∧ v < listValMax then
      some { s with
        thread := Function.update s.thread t
          (.search (.call op) v (.start (.enter list list.pHead))) }
    else none
  | .lib t =>
    (libStep x list s.heap (s.thread t)).map fun e =>
      { s with
        heap := e.1
        linked := match e.2.1 with
          | some a => Function.update s.linked a true
          | none => s.linked
        thread := Function.update s.thread t e.2.2 }
  | .malloc t a =>
    match s.thread t with
    | .malloc v left right =>
      if a ≠ 0 ∧ s.used a = false then
        some { s with
          heap := ⟨Function.update s.heap.val a v, Function.update s.heap.pNext a (ref right)⟩
          used := Function.update s.used a true
          thread := Function.update s.thread t (.insert v left right a) }
      else none
    | _ => none

/-- `pure_new_list`, with no call yet. -/
def State.init (list : ListT) : State where
  heap := {
    val := fun a => if a = list.pHead then listValMin else if a = list.pMax then listValMax else 0
    pNext := fun a => if a = list.pHead then ref list.pMax else null }
  used := fun a => a = list.pHead ∨ a = list.pMax
  linked := fun a => a = list.pHead ∨ a = list.pMax
  thread := fun _ => .idle

/-! ### The abstract set -/

/-- Follow the addresses in `p_next`, whatever their marks. -/
def Heap.next (h : Heap) (a : Nat) : Nat := (h.pNext a).addr

def Heap.dead (h : Heap) (a : Nat) : Prop := (h.pNext a).marked = true

def State.Reached (s : State) (list : ListT) : Nat → Prop :=
  Chain.Path s.heap.next list.pMax list.pHead

/-- The keys of the reached nodes that are no sentinels and whose `p_next` is unmarked. -/
def State.keys (s : State) (list : ListT) : Set Int :=
  {v | ∃ a, s.Reached list a ∧ a ≠ list.pHead ∧ a ≠ list.pMax ∧ ¬ s.heap.dead a ∧ s.heap.val a = v}

end ReadLogUpdate.Harris
