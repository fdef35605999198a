import ReadLogUpdate.Splice
import ReadLogUpdate.Rlu.Unpublished
import ReadLogUpdate.RluList.Machine

/-!
# The lists that the versions see

Every version sees a sorted list. A write set of an add or a remove redirects one link of the newest
one, and the write sets that are not published yet are apart from each other, because their nodes
are locked. So a publication makes a sorted list of a sorted list.
-/

namespace ReadLogUpdate.RluList

open Harris (ListT listValMin listValMax)
open Chain

def ofAddr (a : Nat) : Ptr := if a = 0 then .null else .actual a

/-- The address in a word; `0` for `NULL`. -/
def Word.addr : Word → Nat
  | .ptr (.actual a) => a
  | _ => 0

def next (c : Nat → Nat → Word) (o : Nat) : Nat := (c o 1).addr

/-- The key of a node, which no store changes. -/
def key (init : Nat → Nat → Word) (o : Nat) : Int := (init o 0).toVal

/-- A `p_next` that points at a node itself, or at none. -/
def Word.Plain (x : Word) : Prop := ∃ a, x = .ptr (ofAddr a)

theorem Word.addr_ofAddr (a : Nat) : (Word.ptr (ofAddr a)).addr = a := by
  unfold ofAddr
  split_ifs with zero
  · exact zero.symm
  · rfl

theorem Word.Plain.eq {x : Word} (plain : x.Plain) : x = .ptr (ofAddr x.addr) := by
  obtain ⟨a, rfl⟩ := plain
  rw [Word.addr_ofAddr]

/-- What the write set at `ctr` does to the list. -/
def splice (th : Thread Word) (ctr : Nat) : Splice Nat :=
  ⟨(th.entry ctr 0).pObjActual, (th.entry ctr 1).pObjActual, ((th.entry ctr 0).copy 1).addr⟩

variable {init : Nat → Nat → Word} {list : ListT}

abbrev Reached (list : ListT) (c : Nat → Nat → Word) : Nat → Prop :=
  Path (next c) list.pMax list.pHead

/-- The write set at `ctr` is one of an add or a remove, and fits the list of the contents `c`. -/
structure Twin (init : Nat → Nat → Word) (list : ListT) (c : Nat → Nat → Word) (th : Thread Word)
    (ctr : Nat) : Prop where
  two : (th.objWriteSet (wsIndex ctr)).numOfObjs = 2
  val : ∀ i < 2, (th.entry ctr i).copy 0 = init (th.entry ctr i).pObjActual 0
  plain : ((th.entry ctr 0).copy 1).Plain
  rest : (th.entry ctr 1).copy 1 = c (th.entry ctr 1).pObjActual 1
  fits : (splice th ctr).Fits (next c) (key init) list.pHead list.pMax

structure Typed (init : Nat → Nat → Word) (used : Nat → Bool) (c : Nat → Nat → Word) : Prop where
  val : ∀ o, used o = true → c o 0 = init o 0
  plain : ∀ o, used o = true → (c o 1).Plain

/-- A sorted list on nodes that `malloc` has returned. -/
structure IsList (init : Nat → Nat → Word) (list : ListT) (used : Nat → Bool)
    (c : Nat → Nat → Word) : Prop where
  typed : Typed init used c
  lists : ∃ S, Lists (next c) (key init) list.pHead list.pMax S
  reached : ∀ o, Reached list c o → used o = true
  last : next c list.pMax = 0

abbrev at_ (init : Nat → Nat → Word) (s : ReadLogUpdate.State Word) (l : Nat) : Nat → Nat → Word :=
  valueAt init l s.published

abbrev newestAt (init : Nat → Nat → Word) (s : ReadLogUpdate.State Word) : Nat → Nat → Word :=
  at_ init s s.gWriterVersion

/-- A section on version `l` of thread `r`, beside what is published meanwhile. -/
structure Beside (init : Nat → Nat → Word) (list : ListT) (s : ReadLogUpdate.State Word) (r l : Nat) :
    Prop where
  own : ∀ ctr, (s.thread r).Unpublished ctr → Twin init list (at_ init s l) (s.thread r) ctr
  still : ∀ o, Reached list (at_ init s l) o →
    (∀ p ∈ s.published, l < p.version → ∀ e ∈ p.objs, e.1 ≠ o) → Reached list (newestAt init s) o

structure Listed (init : Nat → Nat → Word) (list : ListT) (used : Nat → Bool)
    (s : ReadLogUpdate.State Word) : Prop where
  isList : ∀ l, IsList init list used (at_ init s l)
  twins : ∀ t ctr, (s.thread t).Unpublished ctr →
    Twin init list (newestAt init s) (s.thread t) ctr
  news : ∀ t ctr, (s.thread t).Unpublished ctr → used (splice (s.thread t) ctr).new = true
  apart : ∀ t u a b, (s.thread t).Unpublished a → (s.thread u).Unpublished b → ¬ (t = u ∧ a = b) →
    (splice (s.thread t) a).new ≠ (splice (s.thread u) b).new
  beside : ∀ r l, (s.thread r).sectionVersion = some l → Beside init list s r l
  objs : ∀ p ∈ s.published, ∀ e ∈ p.objs, used e.1 = true

/-! ### Overlays of write sets -/

theorem Typed.overlaid {used : Nat → Bool} {c : Nat → Nat → Word} {objs : List (Nat × (Nat → Word))}
    (typed : Typed init used c)
    (new : ∀ e ∈ objs, e.2 0 = init e.1 0 ∧ (e.2 1).Plain) : Typed init used (overlay objs c) := by
  have cases_ (o : Nat) : overlay objs c o = c o ∨ ∃ e ∈ objs, e.1 = o ∧ overlay objs c o = e.2 := by
    unfold ReadLogUpdate.overlay
    cases found : objs.find? fun e => e.1 = o with
    | none => exact .inl rfl
    | some e =>
      exact .inr ⟨e, List.mem_of_find?_eq_some found, by simpa using List.find?_some found, rfl⟩
  refine ⟨fun o use => ?_, fun o use => ?_⟩
  · rcases cases_ o with same | ⟨e, mem, rfl, eq⟩
    · rw [same]
      exact typed.val o use
    · rw [eq]
      exact (new e mem).1
  · rcases cases_ o with same | ⟨e, mem, rfl, eq⟩
    · rw [same]
      exact typed.plain o use
    · rw [eq]
      exact (new e mem).2

section Log
variable {cfg : Config} {s : ReadLogUpdate.State Word} {used : Nat → Bool}

theorem Twin.node_used {c : Nat → Nat → Word} {th : Thread Word} {ctr : Nat}
    (twin : Twin init list c th ctr) (isList : IsList init list used c) {i : Nat} (lt : i < 2) :
    used (th.entry ctr i).pObjActual = true := by
  obtain rfl | rfl : i = 0 ∨ i = 1 := by omega
  · exact isList.reached _ twin.fits.reached
  · exact isList.reached _ twin.fits.after_reached

/-- The contents of a write set's entries are those of nodes. -/
theorem Twin.typed {c : Nat → Nat → Word} {th : Thread Word} {ctr : Nat}
    (twin : Twin init list c th ctr) (isList : IsList init list used c) {i : Nat} (lt : i < 2) :
    (th.entry ctr i).copy 0 = init (th.entry ctr i).pObjActual 0 ∧ ((th.entry ctr i).copy 1).Plain := by
  refine ⟨twin.val i lt, ?_⟩
  obtain rfl | rfl : i = 0 ∨ i = 1 := by omega
  · exact twin.plain
  · rw [twin.rest]
    exact isList.typed.plain _ (twin.node_used isList lt)

theorem Listed.apart_splice (listed : Listed init list used s) (sound : Sound cfg s) {t u a b : Nat}
    (ha : (s.thread t).Unpublished a) (hb : (s.thread u).Unpublished b) (ne : ¬ (t = u ∧ a = b)) :
    (splice (s.thread t) a).Apart (splice (s.thread u) b) ∧
      (splice (s.thread t) a).new ≠ (splice (s.thread u) b).new := by
  have two := (listed.twins t a ha).two
  have two' := (listed.twins u b hb).two
  have apart {i j : Nat} (hi : i < 2) (hj : j < 2) :
      ((s.thread t).entry a i).pObjActual ≠ ((s.thread u).entry b j).pObjActual := by
    intro same
    obtain ⟨eq, eq', -⟩ := sound.entry_inj ha (by omega) hb (by omega) same
    exact ne ⟨eq, eq'⟩
  exact ⟨⟨apart (by omega) (by omega), apart (by omega) (by omega), apart (by omega) (by omega),
    apart (by omega) (by omega)⟩, listed.apart t u a b ha hb ne⟩

/-- Write sets that are on their way, each of which fits the list of the contents `c`. -/
structure OnTheWay (init : Nat → Nat → Word) (list : ListT) (s : ReadLogUpdate.State Word)
    (c : Nat → Nat → Word) (ws : List (Nat × Nat)) (objs : List (Nat × (Nat → Word))) : Prop where
  nodup : ws.Nodup
  unpublished : ∀ w ∈ ws, (s.thread w.1).Unpublished w.2
  twins : ∀ w ∈ ws, Twin init list c (s.thread w.1) w.2
  mem : ∀ e, e ∈ objs ↔ ∃ w ∈ ws, ∃ i < 2,
    e = (((s.thread w.1).entry w.2 i).pObjActual, ((s.thread w.1).entry w.2 i).copy)

abbrev splices (s : ReadLogUpdate.State Word) (ws : List (Nat × Nat)) : List (Splice Nat) :=
  ws.map fun w => splice (s.thread w.1) w.2

variable {c : Nat → Nat → Word} {ws : List (Nat × Nat)} {objs : List (Nat × (Nat → Word))}

theorem OnTheWay.allFit (way : OnTheWay init list s c ws objs) (listed : Listed init list used s)
    (sound : Sound cfg s) : AllFit (next c) (key init) list.pHead list.pMax (splices s ws) := by
  refine ⟨fun w' mem' => ?_, ?_⟩
  · obtain ⟨w, hw, rfl⟩ := List.mem_map.mp mem'
    exact (way.twins w hw).fits
  · rw [List.pairwise_map]
    refine way.nodup.pairwise_of_forall_ne fun w mem w' mem' ne => ?_
    exact listed.apart_splice sound (way.unpublished w mem) (way.unpublished w' mem')
      fun same => ne (Prod.ext same.1 same.2)

theorem OnTheWay.next_eq (way : OnTheWay init list s c ws objs) (listed : Listed init list used s)
    (sound : Sound cfg s) : next (overlay objs c) = spliced (next c) (splices s ws) := by
  have inj {w w' : Nat × Nat} (mem : w ∈ ws) (mem' : w' ∈ ws) {i j : Nat} (hi : i < 2) (hj : j < 2)
      (same : ((s.thread w.1).entry w.2 i).pObjActual = ((s.thread w'.1).entry w'.2 j).pObjActual) :
      w = w' ∧ i = j := by
    have two := (way.twins w mem).two
    have two' := (way.twins w' mem').two
    obtain ⟨eq, eq', eq''⟩ := sound.entry_inj (way.unpublished w mem) (by omega)
      (way.unpublished w' mem') (by omega) same
    exact ⟨Prod.ext eq eq', eq''⟩
  funext o
  by_cases here : ∃ e ∈ objs, e.1 = o
  · obtain ⟨e, he, rfl⟩ := here
    obtain ⟨w, hw, i, lt, rfl⟩ := (way.mem e).mp he
    have value : overlay objs c ((s.thread w.1).entry w.2 i).pObjActual =
        ((s.thread w.1).entry w.2 i).copy := by
      refine overlay_of_mem he fun e' he' same => ?_
      obtain ⟨w', hw', j, lt', rfl⟩ := (way.mem e').mp he'
      obtain ⟨rfl, rfl⟩ := inj hw' hw lt' lt same
      rfl
    obtain rfl | rfl : i = 0 ∨ i = 1 := by omega
    · rw [next, value]
      exact (spliced_of_mem (way.allFit listed sound).apart (List.mem_map.mpr ⟨w, hw, rfl⟩)).symm
    · rw [next, value, spliced_of_ne]
      · rw [(way.twins w hw).rest]
        rfl
      · intro w' mem' same
        obtain ⟨w', hw', rfl⟩ := List.mem_map.mp mem'
        exact absurd (inj hw' hw (by omega) (by omega) same).2 (by omega)
  · rw [next, overlay_of_forall_ne fun e he same => here ⟨e, he, same⟩, spliced_of_ne]
    · rfl
    · intro w' mem' same
      obtain ⟨w, hw, rfl⟩ := List.mem_map.mp mem'
      exact here ⟨_, (way.mem _).mpr ⟨w, hw, 0, by omega, rfl⟩, same⟩

/-- Overlaying write sets makes a sorted list of a sorted list. -/
theorem OnTheWay.isList (way : OnTheWay init list s c ws objs) (listed : Listed init list used s)
    (sound : Sound cfg s) (isList : IsList init list used c) :
    IsList init list used (overlay objs c) := by
  have all := way.allFit listed sound
  obtain ⟨S, lists⟩ := isList.lists
  refine ⟨isList.typed.overlaid fun e he => ?_, ?_, fun o reached => ?_, ?_⟩
  · obtain ⟨w, hw, i, lt, rfl⟩ := (way.mem e).mp he
    exact (way.twins w hw).typed isList lt
  · rw [way.next_eq listed sound]
    exact (all.lists lists).1
  · unfold Reached at reached
    rw [way.next_eq listed sound] at reached
    rcases all.reached_back lists reached with reached | ⟨w', mem', -, rfl⟩
    · exact isList.reached o reached
    · obtain ⟨w, hw, rfl⟩ := List.mem_map.mp mem'
      exact listed.news _ _ (way.unpublished w hw)
  · rw [way.next_eq listed sound, spliced_of_ne fun w mem => (all.fits w mem).outer]
    exact isList.last

/-- A write set apart from these fits the list that they make. -/
theorem OnTheWay.twin (way : OnTheWay init list s c ws objs) (listed : Listed init list used s)
    (sound : Sound cfg s) (isList : IsList init list used c) {u b : Nat}
    (unpublished : (s.thread u).Unpublished b) (other : (u, b) ∉ ws)
    (twin : Twin init list c (s.thread u) b) : Twin init list (overlay objs c) (s.thread u) b := by
  have two := twin.two
  have ne {w : Nat × Nat} (mem : w ∈ ws) : ¬ (w.1 = u ∧ w.2 = b) := by
    intro same
    exact other (by rw [← same.1, ← same.2]; exact mem)
  obtain ⟨S, lists⟩ := isList.lists
  refine ⟨two, twin.val, twin.plain, ?_, ?_⟩
  · rw [overlay_of_forall_ne]
    · exact twin.rest
    · intro e he same
      obtain ⟨w, hw, i, lt, rfl⟩ := (way.mem e).mp he
      have two' := (way.twins w hw).two
      obtain ⟨eq, eq', -⟩ := sound.entry_inj (way.unpublished w hw) (by omega) unpublished
        (by omega) same
      exact ne hw ⟨eq, eq'⟩
  · rw [way.next_eq listed sound]
    refine ((way.allFit listed sound).lists lists).2 _ twin.fits fun w' mem' => ?_
    obtain ⟨w, hw, rfl⟩ := List.mem_map.mp mem'
    exact listed.apart_splice sound (way.unpublished w hw) unpublished (ne hw)

def pending (t : Nat) (th : Thread Word) : List (Nat × Nat) :=
  (List.range' th.wsWbCounter (th.wsTailCounter - th.wsWbCounter)).map fun ctr => (t, ctr)

theorem mem_pending {t : Nat} {th : Thread Word} {w : Nat × Nat} :
    w ∈ pending t th ↔ w.1 = t ∧ th.wsWbCounter ≤ w.2 ∧ w.2 < th.wsTailCounter := by
  unfold pending
  rw [List.mem_map]
  simp only [List.mem_range'_1]
  constructor
  · rintro ⟨ctr, ⟨ge, lt⟩, rfl⟩
    exact ⟨rfl, ge, by omega⟩
  · rintro ⟨eq, ge, lt⟩
    exact ⟨w.2, ⟨ge, by omega⟩, by rw [← eq]⟩

/-- The pending write sets of a thread are on their way. -/
theorem pending_onTheWay {t : Nat} (idle : (s.thread t).flight = none)
    (twins : ∀ ctr, (s.thread t).Unpublished ctr → Twin init list c (s.thread t) ctr) :
    OnTheWay init list s c (pending t (s.thread t)) (s.thread t).pendingObjs := by
  have unpublished {w : Nat × Nat} (mem : w ∈ pending t (s.thread t)) :
      w.1 = t ∧ (s.thread t).Unpublished w.2 := by
    obtain ⟨eq, ge, lt⟩ := mem_pending.mp mem
    exact ⟨eq, idle, ge, .inl lt⟩
  refine ⟨?_, fun w mem => ?_, fun w mem => ?_, fun e => ?_⟩
  · exact List.Nodup.map (fun a b same => (Prod.mk.inj same).2) List.nodup_range'
  · obtain ⟨eq, on⟩ := unpublished mem
    rw [eq]
    exact on
  · obtain ⟨eq, on⟩ := unpublished mem
    rw [eq]
    exact twins _ on
  · rw [Thread.mem_pendingObjs]
    constructor
    · rintro ⟨ctr, i, ge, lt, num, rfl⟩
      rw [(twins ctr ⟨idle, ge, .inl lt⟩).two] at num
      exact ⟨(t, ctr), mem_pending.mpr ⟨rfl, ge, lt⟩, i, num, rfl⟩
    · rintro ⟨w, mem, i, lt, rfl⟩
      obtain ⟨eq, ge, lt'⟩ := mem_pending.mp mem
      rw [eq]
      exact ⟨w.2, i, ge, lt', by rw [(twins w.2 ⟨idle, ge, .inl lt'⟩).two]; exact lt, rfl⟩

end Log

/-! ### Steps of the library -/

theorem splice_congr {th th' : Thread Word} {ctr : Nat}
    (same : th'.objWriteSet (wsIndex ctr) = th.objWriteSet (wsIndex ctr)) :
    splice th' ctr = splice th ctr := by
  unfold splice Thread.entry
  rw [same]

theorem Twin.congr {c : Nat → Nat → Word} {th th' : Thread Word} {ctr : Nat}
    (twin : Twin init list c th ctr)
    (same : th'.objWriteSet (wsIndex ctr) = th.objWriteSet (wsIndex ctr)) :
    Twin init list c th' ctr := by
  obtain ⟨two, val, plain, rest, fits⟩ := twin
  rw [← splice_congr same] at fits
  unfold Thread.entry at val plain rest
  rw [← same] at two val plain rest
  exact ⟨two, val, plain, rest, fits⟩

section Step
variable {cfg : Config} {s : ReadLogUpdate.State Word} {used : Nat → Bool}
  {a : ReadLogUpdate.Act Word} {t : Nat} {e : Effect Word}

theorem Listed.step (listed : Listed init list used s) (sound : Sound cfg s)
    (versions : ∀ p ∈ s.published, p.version ≤ s.gWriterVersion) (right : RightSlot s a)
    (act : ActEffect cfg s a t e) (notLeaving : e.1.pc ≠ .readerUnlock) :
    Listed init list used (s.apply t e.1 e.2) := by
  have h := sound.wf.threads t
  have log := actEffect_log h right act
  have back {u ctr : Nat} (on : ((s.apply t e.1 e.2).thread u).Unpublished ctr) :=
    unpublished_back sound right act notLeaving on
  have news (u ctr : Nat) (on : ((s.apply t e.1 e.2).thread u).Unpublished ctr) :
      used (splice ((s.apply t e.1 e.2).thread u) ctr).new = true := by
    obtain ⟨on, same⟩ := back on
    rw [splice_congr same]
    exact listed.news u ctr on
  have apart (u v x y : Nat) (hx : ((s.apply t e.1 e.2).thread u).Unpublished x)
      (hy : ((s.apply t e.1 e.2).thread v).Unpublished y) (ne : ¬ (u = v ∧ x = y)) :
      (splice ((s.apply t e.1 e.2).thread u) x).new ≠ (splice ((s.apply t e.1 e.2).thread v) y).new := by
    obtain ⟨hx, same⟩ := back hx
    obtain ⟨hy, same'⟩ := back hy
    rw [splice_congr same, splice_congr same']
    exact listed.apart u v x y hx hy ne
  rcases log.publishes h (sound.grace.acquires t) with
    ⟨published, writer⟩ | ⟨idle, flying, published, writer⟩
  · -- nothing is published
    have values (l : Nat) : at_ init (s.apply t e.1 e.2) l = at_ init s l := by
      unfold at_
      rw [published]
    have newest : newestAt init (s.apply t e.1 e.2) = newestAt init s := by
      unfold newestAt
      rw [values, writer]
    refine ⟨fun l => ?_, fun u ctr on => ?_, news, apart, fun r l here => ?_, ?_⟩
    · rw [values]
      exact listed.isList l
    · obtain ⟨on, same⟩ := back on
      rw [newest]
      exact (listed.twins u ctr on).congr same
    · have from_ : (s.thread r).sectionVersion = some l ∨ l = s.gWriterVersion := by
        rw [State.apply_thread] at here
        by_cases eq : r = t
        · subst eq
          rw [Function.update_self] at here
          rcases (actEffect_section h act).version h with ⟨gone, -⟩ | ⟨loaded, -⟩ | ⟨kept, -⟩
          · rw [gone] at here
            cases here
          · exact .inr (Option.some.inj (here.symm.trans loaded))
          · exact .inl (kept.symm.trans here)
        · rw [Function.update_of_ne eq] at here
          exact .inl here
      refine ⟨fun ctr on => ?_, fun o reached untouched => ?_⟩
      · obtain ⟨on, same⟩ := back on
        rw [values]
        rcases from_ with before | rfl
        · exact ((listed.beside r l before).own ctr on).congr same
        · exact (listed.twins r ctr on).congr same
      · rw [newest]
        rw [values] at reached
        rcases from_ with before | rfl
        · rw [published] at untouched
          exact (listed.beside r l before).still o reached untouched
        · exact reached
    · rw [published]
      exact listed.objs
  · -- the write sets of the thread are published
    have way := pending_onTheWay idle (listed.twins t)
    have isList := listed.isList s.gWriterVersion
    have values (l : Nat) : at_ init (s.apply t e.1 e.2) l =
        if l ≤ s.gWriterVersion then at_ init s l
        else overlay (s.thread t).pendingObjs (newestAt init s) := by
      unfold at_
      rw [published]
      exact valueAt_publish versions l
    have newest : newestAt init (s.apply t e.1 e.2) =
        overlay (s.thread t).pendingObjs (newestAt init s) := by
      unfold newestAt
      rw [values, writer, if_neg (by omega)]
    have other {u ctr : Nat} (on : ((s.apply t e.1 e.2).thread u).Unpublished ctr) : u ≠ t := by
      rintro rfl
      rw [State.apply_thread, Function.update_self] at on
      exact flying on.1
    refine ⟨fun l => ?_, fun u ctr on => ?_, news, apart, fun r l here => ?_, fun p mem x hx => ?_⟩
    · rw [values]
      split_ifs
      · exact listed.isList l
      · exact way.isList listed sound isList
    · have ne := other on
      obtain ⟨on, same⟩ := back on
      rw [newest]
      refine (way.twin listed sound isList on (fun mem => ?_) (listed.twins u ctr on)).congr same
      exact ne (mem_pending.mp mem).1
    · have ne : r ≠ t := by
        rintro rfl
        rw [State.apply_thread, Function.update_self] at here
        have ok := actEffect_ok h right act
        exact flying (ok.control.inside (ok.odd_of_version here)).1.2.2.1
      rw [State.apply_thread, Function.update_of_ne ne] at here
      have le := (sound.grace.section_le r l here).2
      have same : at_ init (s.apply t e.1 e.2) l = at_ init s l := by
        rw [values, if_pos le]
      refine ⟨fun ctr on => ?_, fun o reached untouched => ?_⟩
      · obtain ⟨on, kept⟩ := back on
        rw [same]
        exact ((listed.beside r l here).own ctr on).congr kept
      · rw [same] at reached
        rw [published] at untouched
        have before := (listed.beside r l here).still o reached fun p mem =>
          untouched p (List.mem_cons_of_mem _ mem)
        obtain ⟨S, lists⟩ := isList.lists
        rw [newest]
        unfold Reached
        rw [way.next_eq listed sound]
        refine (way.allFit listed sound).keeps lists before fun w' mem' eq => ?_
        obtain ⟨w, hw, rfl⟩ := List.mem_map.mp mem'
        exact untouched _ List.mem_cons_self (by show l < s.gWriterVersion + 1; omega) _
          ((way.mem _).mpr ⟨w, hw, 1, by omega, rfl⟩) eq
    · rw [published] at mem
      rcases List.mem_cons.mp mem with rfl | mem
      · obtain ⟨w, hw, i, lt, rfl⟩ := (way.mem x).mp hx
        exact (way.twins w hw).node_used isList lt
      · exact listed.objs p mem x hx

end Step

end ReadLogUpdate.RluList
