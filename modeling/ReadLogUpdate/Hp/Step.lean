import ReadLogUpdate.Harris.Step

/-!
# Hazard pointers

`hazard_ptrs.c` and the `hp_harris_list` calls with their hazard records. Every read of a shared
word and every store into a record is a step of its own.
-/

namespace ReadLogUpdate.Hp

open Harris

/-! ### `hazard_ptrs.c` -/

def hpMaxRecords : Nat := 100

/-- `hp_thread_t`, with the word in the `ptr` of every record. -/
structure HpThread where
  savedNHpRecords : Nat
  nHpRecords : Nat
  hpRecords : Nat → Ref

def HpThread.set (self : HpThread) (p : Nat) (w : Ref) : HpThread :=
  { self with hpRecords := Function.update self.hpRecords p w }

def hpReset (self : HpThread) : HpThread := { self with nHpRecords := 0 }

def hpSave (self : HpThread) : HpThread := { self with savedNHpRecords := self.nHpRecords }

def hpRestore (self : HpThread) : HpThread := { self with nHpRecords := self.savedNHpRecords }

/-- `HP_alloc`; `none` is its `abort()`. -/
def hpAlloc (self : HpThread) : Option (Nat × HpThread) :=
  if self.nHpRecords + 1 ≥ hpMaxRecords then none
  else some (self.nHpRecords, { self with nHpRecords := self.nHpRecords + 1 })

/-- The loop of `HP_init` reads the pointer, stores it in the record, and reads the pointer again. -/
inductive InitPc where
  | fetch
  | store (w : Ref)
  | validate
  deriving DecidableEq

/-- A step of `HP_init`, which finds `w` in the pointer; `none` is its return. -/
def hpInit (p : Nat) (w : Ref) (self : HpThread) : InitPc → HpThread × Option InitPc
  | .fetch => (self, some (.store w))
  | .store w => (self.set p w, some .validate)
  | .validate => if self.hpRecords p = w then (self, none) else (self, some .fetch)

/-! ### `hp_harris_list_search` -/

/-- The records by their role: `p_hp_temp`, `p_hp_left_node_next` and so on. -/
structure Roles where
  temp : Nat
  leftNodeNext : Nat
  rightNode : Nat
  t : Nat
  tNext : Nat
  myLeftNode : Nat
  deriving DecidableEq

def Roles.swap (r : Roles) : Roles := { r with temp := r.t, t := r.tNext, tNext := r.t }

inductive SearchPc where
  /-- `search_again` -/
  | again (l : Locals)
  | enter (l : Locals) (r : Roles)
  /-- `HP_INIT` of `p_hp_t_next`; `first` is the one before the scan -/
  | init (l : Locals) (r : Roles) (first : Bool) (pc : InitPc)
  | load (l : Locals) (r : Roles) (first : Bool)
  | test (l : Locals) (r : Roles) (tNext : Ref)
  | follow (l : Locals) (r : Roles) (tNext : Ref)
  | keepLeft (l : Locals) (r : Roles) (tNext : Ref)
  | keepNext (l : Locals) (r : Roles) (tNext : Ref)
  | check (l : Locals) (r : Roles)
  | keepRight (l : Locals) (r : Roles)
  | cas (l : Locals) (r : Roles)
  | testNull (l : Locals) (r : Roles)
  | testMark (l : Locals) (r : Roles)
  deriving DecidableEq

/-- What a step leaves: the heap, the records, the nodes whose `p_next` it read, and where it
leads. -/
structure Effect (β : Type) where
  heap : Heap
  hp : HpThread
  read : List Nat
  pc : β

def allocRoles (hp : HpThread) : Option (Roles × HpThread) := do
  let (temp, hp) ← hpAlloc hp
  let (leftNodeNext, hp) ← hpAlloc hp
  let (rightNode, hp) ← hpAlloc hp
  let (t, hp) ← hpAlloc hp
  let (tNext, hp) ← hpAlloc hp
  let (myLeftNode, hp) ← hpAlloc hp
  return (⟨temp, leftNodeNext, rightNode, t, tNext, myLeftNode⟩, hp)

def searchStep (list : ListT) (v : Int) (h : Heap) (hp : HpThread) :
    SearchPc → Option (Effect (SearchPc ⊕ Locals))
  | .again l => (allocRoles (hpRestore hp)).map fun (r, hp) => ⟨h, hp, [], .inl (.enter l r)⟩
  | .enter l r =>
    -- `p_list->p_head` never changes, so both `HP_INIT` of it return at once
    some ⟨h, (hp.set r.leftNodeNext (ref list.pHead)).set r.t (ref list.pHead), [],
      .inl (.init { l with leftNodeNext := list.pHead, t := list.pHead } r true .fetch)⟩
  | .init l r first pc =>
    match hpInit r.tNext (h.pNext l.t) hp pc with
    | (hp, some pc) => some ⟨h, hp, [l.t], .inl (.init l r first pc)⟩
    | (hp, none) => some ⟨h, hp, [l.t], .inl (.load l r first)⟩
  | .load l r first =>
    some ⟨h, hp, [l.t],
      .inl (if first then .follow l r (h.pNext l.t) else .test l r (h.pNext l.t))⟩
  | .test l r tNext =>
    some ⟨h, hp, [],
      .inl (if isMarkedRef tNext ∨ h.val l.t < v then .follow l r tNext else .keepRight l r)⟩
  | .follow l r tNext =>
    some ⟨h, hp, [], .inl (if isMarkedRef tNext then .check { l with t := getUnmarkedRef tNext } r
      else .keepLeft l r tNext)⟩
  | .keepLeft l r tNext =>
    some ⟨h, hp.set r.myLeftNode (ref l.t), [], .inl (.keepNext { l with myLeftNode := l.t } r tNext)⟩
  | .keepNext l r tNext =>
    some ⟨h, hp.set r.leftNodeNext tNext, [],
      .inl (.check { l with leftNodeNext := tNext.addr, t := getUnmarkedRef tNext } r)⟩
  | .check l r =>
    some ⟨h, hp, [l.t],
      .inl (if h.pNext l.t = null then .keepRight l r else .init l r.swap false .fetch)⟩
  | .keepRight l r =>
    some ⟨h, hp.set r.rightNode (ref l.t), [],
      .inl (if l.leftNodeNext = l.t then .testNull l r else .cas l r)⟩
  | .cas l r =>
    if h.pNext l.leftNode = ref l.leftNodeNext then
      some ⟨h.setNext l.leftNode (ref l.t), hp, [l.leftNode], .inl (.testNull l r)⟩
    -- the outer loop does not allocate again, and the roles stay swapped
    else some ⟨h, hp, [l.leftNode], .inl (.enter l r)⟩
  | .testNull l r =>
    some ⟨h, hp, [l.t],
      if h.pNext l.t = null then .inr (l.returned .hpHarris) else .inl (.testMark l r)⟩
  | .testMark l _ =>
    some ⟨h, hp, [l.t],
      if isMarkedRef (h.pNext l.t) then .inl (.again l) else .inr (l.returned .hpHarris)⟩

def SearchPc.dereferences : SearchPc → Option Nat
  | .init l _ _ .fetch | .init l _ _ .validate | .load l _ _ | .check l _ => some l.t
  | .test l _ tNext => if isMarkedRef tNext then none else some l.t
  | _ => none

/-! ### The calls -/

inductive Pc where
  | idle
  | done (op : Op) (v : Int) (result : Bool)
  | start (op : Op) (v : Int)
  /-- with `p_hp_right_node_next` of a remove -/
  | search (op : Op) (v : Int) (p : Nat) (pc : SearchPc)
  | containsTest (v : Int) (right : Nat)
  | malloc (v : Int) (left right : Nat)
  | insert (v : Int) (left right new : Nat)
  /-- `HP_INIT` of `p_hp_right_node_next` -/
  | initNext (v : Int) (left right p : Nat) (pc : InitPc)
  | loadNext (v : Int) (left right : Nat)
  | mark (v : Int) (left right : Nat) (next : Ref)
  | unlink (v : Int) (left right : Nat) (next : Ref)
  /-- `harris_list_search` at the end of a remove -/
  | cleanup (v : Int) (pc : Harris.SearchPc)
  deriving DecidableEq

/-- `HP_RESET` and what a call does up to `search_again`. -/
def startCall (list : ListT) (hp : HpThread) : Op → Option (Nat × HpThread)
  | .contains | .add => do
    let (p, hp) ← hpAlloc (hpReset hp)
    return (p, hpSave (hp.set p (ref list.pHead)))
  | .remove => do
    let (p, hp) ← hpAlloc (hpReset hp)
    let (next, hp) ← hpAlloc hp
    return (next, hpSave (hp.set p (ref list.pHead)))

def afterSearch (h : Heap) (hp : HpThread) (v : Int) (l : Locals) (p : Nat) : Op → HpThread × Pc
  | .contains => (hp, .containsTest v l.t)
  | .add => if h.val l.t = v then (hpReset hp, .done .add v false) else (hp, .malloc v l.leftNode l.t)
  | .remove =>
    if h.val l.t ≠ v then (hpReset hp, .done .remove v false)
    else (hp, .initNext v l.leftNode l.t p .fetch)

def libStep (list : ListT) (h : Heap) (hp : HpThread) : Pc → Option (Effect Pc)
  | .start op v =>
    (startCall list hp op).map fun (p, hp) =>
      ⟨h, hp, [], .search op v p (.again (.enter list list.pHead))⟩
  | .search op v p pc =>
    (searchStep list v h hp pc).map fun e =>
      match e.pc with
      | .inl pc => ⟨e.heap, e.hp, e.read, .search op v p pc⟩
      | .inr l =>
        let after := afterSearch h e.hp v l p op
        ⟨e.heap, after.1, e.read, after.2⟩
  | .containsTest v right =>
    some ⟨h, hpReset hp, [], .done .contains v (!(h.pNext right = null || h.val right ≠ v))⟩
  | .insert v left right new =>
    if h.pNext left = ref right then
      some ⟨h.setNext left (ref new), hpReset hp, [], .done .add v true⟩
    else some ⟨h, hp, [], .start .add v⟩
  | .initNext v left right p pc =>
    match hpInit p (h.pNext right) hp pc with
    | (hp, some pc) => some ⟨h, hp, [], .initNext v left right p pc⟩
    | (hp, none) => some ⟨h, hp, [], .loadNext v left right⟩
  | .loadNext v left right =>
    if isMarkedRef (h.pNext right) then some ⟨h, hp, [], .start .remove v⟩
    else some ⟨h, hp, [], .mark v left right (h.pNext right)⟩
  | .mark v left right next =>
    if h.pNext right = next then
      some ⟨h.setNext right (getMarkedRef next), hp, [], .unlink v left right next⟩
    else some ⟨h, hp, [], .start .remove v⟩
  | .unlink v left right next =>
    if h.pNext left = ref right then
      some ⟨h.setNext left next, hpReset hp, [], .done .remove v true⟩
    else some ⟨h, hp, [], .cleanup v (.start (.enter list left))⟩
  | .cleanup v pc =>
    match Harris.searchStep .harris list v h pc with
    | (h, .inl pc) => some ⟨h, hp, [], .cleanup v pc⟩
    | (h, .inr _) => some ⟨h, hpReset hp, [], .done .remove v true⟩
  | .idle | .done _ _ _ | .malloc _ _ _ => none

/-! ### Histories -/

/-- History of the running search: the nodes whose `p_next` it has read, and whether a record has
held its word at a moment when one of these fields pointed there. -/
structure Seen where
  fields : List Nat
  met : Nat → Bool

def Seen.empty : Seen := ⟨[], fun _ => false⟩

/-- What is seen after a step that leaves the heap `h`, turns the records `hp` into `hp'` and reads
the fields `read`. -/
def Seen.next (seen : Seen) (h : Heap) (hp hp' : HpThread) (read : List Nat) : Seen where
  fields := read ++ seen.fields
  met := fun i => (seen.met i && hp.hpRecords i = hp'.hpRecords i) ||
    (read ++ seen.fields).any fun a => (h.pNext a).addr = (hp'.hpRecords i).addr

structure Thread where
  pc : Pc
  hp : HpThread
  seen : Seen

def Pc.begins : Pc → Bool
  | .start _ _ => true
  | _ => false

def Thread.next (th : Thread) (e : Effect Pc) : Thread where
  pc := e.pc
  hp := e.hp
  seen := (if th.pc.begins then Seen.empty else th.seen).next e.heap th.hp e.hp e.read

def Thread.wait (th : Thread) (h : Heap) : Thread :=
  { th with seen := th.seen.next h th.hp th.hp [] }

structure State where
  heap : Heap
  /-- the addresses that `malloc` has returned -/
  used : Nat → Bool
  thread : Nat → Thread

def Pc.atRest : Pc → Bool
  | .idle | .done _ _ _ => true
  | _ => false

def State.after (s : State) (t : Nat) (e : Effect Pc) : Nat → Thread := fun u =>
  if u = t then (s.thread t).next e else (s.thread u).wait e.heap

def step (list : ListT) (s : State) : Act → Option State
  | .call t op v =>
    if (s.thread t).pc.atRest ∧ listValMin < v ∧ v < listValMax then
      some { s with thread := s.after t ⟨s.heap, (s.thread t).hp, [], .start op v⟩ }
    else none
  | .lib t =>
    (libStep list s.heap (s.thread t).hp (s.thread t).pc).map fun e =>
      { s with heap := e.heap, thread := s.after t e }
  | .malloc t a =>
    match (s.thread t).pc with
    | .malloc v left right =>
      if a ≠ 0 ∧ s.used a = false then
        let h : Heap := ⟨Function.update s.heap.val a v, Function.update s.heap.pNext a (ref right)⟩
        some {
          heap := h
          used := Function.update s.used a true
          thread := s.after t ⟨h, (s.thread t).hp, [], .insert v left right a⟩ }
      else none
    | _ => none

/-- `pure_new_list`, with no call yet and whatever is in the records. -/
def State.init (list : ListT) (records : Nat → Nat → Ref) : State where
  heap := (Harris.State.init list).heap
  used := (Harris.State.init list).used
  thread := fun t => ⟨.idle, ⟨0, 0, records t⟩, .empty⟩

end ReadLogUpdate.Hp
