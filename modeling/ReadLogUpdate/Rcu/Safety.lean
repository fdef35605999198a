import Mathlib.Data.Int.Interval
import ReadLogUpdate.Rcu.Shape

/-!
# Safe reclamation in the hash list

What each thread knows at its control point. A node that was unlinked belongs to the thread that
unlinked it until `free`, and the sections that may still see it are those which were open then;
`urcu_synchronize` waits for them.
-/

namespace ReadLogUpdate.Rcu

open Chain
open Harris (listValMin listValMax)

def Pc.owns : Pc → List Nat
  | .assign _ _ _ new => [new]
  | .writerUnlock .remove _ _ next _ true => [next]
  | .urcuFree _ p => [p]
  | _ => []

def Thread.owns (th : Thread) : List Nat :=
  match th.pc with
  | .free _ k => th.freePtrs.drop k
  | pc => pc.owns ++ th.freePtrs

/-- Under the lock of its bucket `prev` is linked and below the key. -/
structure Before (list : HashList) (m : Shared) (v : Int) (prev : Nat) : Prop where
  lo : 0 ≤ v
  hi : v < listValMax
  here : m.Linked (list.hash v) prev
  below : m.val prev < v

/-- What a thread knows of the nodes it holds, and of the sections it waits for. -/
def Knows (cfg : Config) (list : HashList) (m : Shared) (t : Nat) (th : Thread) : Prop :=
  match th.pc with
  | .idle | .done _ _ _ | .urcuFree _ _ => True
  | .readerLock v => 0 ≤ v ∧ v < listValMax
  | .writerLock op v => 0 ≤ v ∧ v < listValMax ∧ op ≠ .contains
  | .loadNext .contains v prev => v < listValMax ∧ m.Safe t prev ∧ m.val prev < v
  | .loadVal .contains v prev next => v < listValMax ∧ m.Safe t prev ∧ m.Safe t next
  | .readerUnlock _ prev next _ => m.Safe t prev ∧ m.Safe t next
  | .loadNext _ v prev => Before list m v prev
  | .loadVal _ v prev next => Before list m v prev ∧ m.pNext prev = next
  | .malloc v prev next => Before list m v prev ∧ m.pNext prev = next ∧ v < m.val next
  | .assign v prev next new => Before list m v prev ∧ m.pNext prev = next ∧ v < m.val next ∧
      m.val new = v ∧ m.pNext new = next
  | .testVal v prev next => Before list m v prev ∧ m.pNext prev = next
  | .loadN v prev next => Before list m v prev ∧ m.pNext prev = next ∧ m.val next = v
  | .unlink v prev next n =>
      Before list m v prev ∧ m.pNext prev = next ∧ m.val next = v ∧ m.pNext next = n
  | .writerUnlock op v prev next n result => m.Linked (list.hash v) prev ∧
      (∀ a, n = some a → m.Linked (list.hash v) a) ∧
      (op = .remove ∧ result = true ∨ m.Linked (list.hash v) next)
  | .readTimes _ i => ∀ p ∈ th.freePtrs, ∀ r, r < i → m.old p r = true → th.times r = m.time r
  | .wait _ i => ∀ p ∈ th.freePtrs, ∀ r, r < cfg.threads → m.old p r = true →
      i ≤ r ∧ th.times r = m.time r
  | .free _ k => ∀ p ∈ th.freePtrs.drop k, ∀ r, r < cfg.threads → m.old p r = false

structure Ok (cfg : Config) (list : HashList) (m : Shared) (t : Nat) (th : Thread) : Prop where
  owned : ∀ q ∈ th.owns, m.used q = true ∧ m.home q = none
  nodup : th.owns.Nodup
  inside : m.inside t = th.pc.reading
  locked : ∀ b, m.urcuSpin b = some t ↔ th.pc.locked list = some b
  knows : Knows cfg list m t th

structure Inv (cfg : Config) (list : HashList) (s : State) : Prop where
  shape : Shape list s.mem
  ok : ∀ t, Ok cfg list s.mem t (s.thread t)
  apart : ∀ t u, t ≠ u → ∀ q ∈ (s.thread t).owns, q ∉ (s.thread u).owns
  rest : ∀ t, cfg.threads ≤ t → (s.thread t).pc = .idle

/-! ### The other threads -/

/-- What a step of another thread leaves to thread `u`. -/
structure Frame (m m' : Shared) (u : Nat) (owned : List Nat) : Prop where
  val : ∀ x, m.used x = true → m'.val x = m.val x
  bucket : ∀ c x, m.urcuSpin c = some u → m.Linked c x → m'.Linked c x ∧ m'.pNext x = m.pNext x
  spin : ∀ c, m'.urcuSpin c = some u ↔ m.urcuSpin c = some u
  safe : ∀ x, m.inside u = true → m.Safe u x → m'.Safe u x
  time : m'.time u = m.time u
  node : ∀ q, m.used q = true → m.home q = none → q ∉ owned →
    m'.used q = true ∧ m'.home q = none ∧ m'.pNext q = m.pNext q ∧
      ∀ r, m'.old q r = true → m.old q r = true ∧ m'.time r = m.time r

section Frame
variable {cfg : Config} {list : HashList} {m m' : Shared} {t u : Nat} {owned : List Nat}

theorem setSpin_iff {b c : Nat} {o : Option Nat} (free : m.urcuSpin b ≠ some u) (other : o ≠ some u) :
    (m.setSpin b o).urcuSpin c = some u ↔ m.urcuSpin c = some u := by
  show Function.update m.urcuSpin b o c = some u ↔ _
  by_cases eq : c = b
  · subst eq
    rw [Function.update_self]
    exact ⟨fun e => absurd e other, fun e => absurd e free⟩
  · rw [Function.update_of_ne eq]

theorem Change.frame (shape : Shape list m) (own : ∀ q ∈ owned, m.used q = true ∧ m.home q = none)
    (change : Change list m t owned m') (ne : u ≠ t) : Frame m m' u owned := by
  have foreign {c : Nat} (mine : m.urcuSpin c = some t) : m.urcuSpin c ≠ some u := by
    rw [mine]
    exact fun e => ne (Option.some.inj e).symm
  have other : some t ≠ some u := fun e => ne (Option.some.inj e).symm
  cases change with
  | same =>
    exact ⟨fun _ _ => rfl, fun _ _ _ here => ⟨here, rfl⟩, fun _ => .rfl, fun _ _ safe => safe, rfl,
      fun q taken home _ => ⟨taken, home, rfl, fun _ old => ⟨old, rfl⟩⟩⟩
  | lock b isFree =>
    have free : m.urcuSpin b ≠ some u := by
      rw [isFree]
      rintro ⟨⟩
    exact ⟨fun _ _ => rfl, fun _ _ _ here => ⟨here, rfl⟩, fun _ => setSpin_iff free other,
      fun _ _ safe => safe, rfl, fun q taken home _ => ⟨taken, home, rfl, fun _ old => ⟨old, rfl⟩⟩⟩
  | unlock b held =>
    exact ⟨fun _ _ => rfl, fun _ _ _ here => ⟨here, rfl⟩,
      fun _ => setSpin_iff (foreign held) (by rintro ⟨⟩), fun _ _ safe => safe, rfl,
      fun q taken home _ => ⟨taken, home, rfl, fun _ old => ⟨old, rfl⟩⟩⟩
  | readerLock outside =>
    refine ⟨fun _ _ => rfl, fun _ _ _ here => ⟨here, rfl⟩, fun _ => .rfl, fun _ _ safe => safe,
      Function.update_of_ne ne _ _,
      fun q taken home _ => ⟨taken, home, rfl, fun r old => ⟨old, ?_⟩⟩⟩
    refine Function.update_of_ne (fun e => ?_) _ _
    have inside := (shape.old q r old).1
    rw [e, outside] at inside
    cases inside
  | readerUnlock =>
    refine ⟨fun _ _ => rfl, fun _ _ _ here => ⟨here, rfl⟩, fun _ => .rfl,
      fun x _ safe => safe.imp_right fun old => (if_neg ne).trans old, Function.update_of_ne ne _ _,
      fun q taken home _ => ⟨taken, home, rfl, fun r old => ?_⟩⟩
    have old : (if r = t then false else m.old q r) = true := old
    split_ifs at old with eq
    exact ⟨old, Function.update_of_ne eq _ _⟩
  | malloc a v n nonnull unused =>
    have apart {x : Nat} (taken : m.used x = true) : x ≠ a := by
      rintro rfl
      cases unused.symm.trans taken
    exact ⟨fun x taken => Function.update_of_ne (apart taken) _ _,
      fun c x _ here => ⟨here, Function.update_of_ne (apart (shape.home x c here).1) _ _⟩,
      fun _ => .rfl, fun _ _ safe => safe, rfl,
      fun q taken home _ => ⟨(Function.update_of_ne (apart taken) _ _).trans taken, home,
        Function.update_of_ne (apart taken) _ _, fun _ old => ⟨old, rfl⟩⟩⟩
  | link b prev new held here outer mem links above below =>
    refine ⟨fun _ _ => rfl, fun c x mine there => ?_, fun _ => .rfl, fun _ _ safe => safe.link, rfl,
      fun q taken home notMine => ⟨taken, ?_, ?_, fun _ old => ⟨old, rfl⟩⟩⟩
    · have apart : x ≠ prev := by
        rintro rfl
        obtain rfl : c = b := Option.some.inj (there.symm.trans here)
        exact foreign held mine
      have ne : x ≠ new := by
        rintro rfl
        cases (own x mem).2.symm.trans there
      exact ⟨(Shared.link_linked ne).mpr there, Function.update_of_ne apart _ _⟩
    · have ne : q ≠ new := by
        rintro rfl
        exact notMine mem
      exact (Function.update_of_ne ne _ _).trans home
    · have apart : q ≠ prev := by
        rintro rfl
        cases home.symm.trans here
      exact Function.update_of_ne apart _ _
  | unlink b prev held here outer inner =>
    have there := shape.next_linked here outer
    refine ⟨fun _ _ => rfl, fun c x mine linked => ?_, fun _ => .rfl,
      fun _ inside safe => safe.unlink inside, rfl,
      fun q taken home notMine => ⟨taken, ?_, ?_, fun r old => ⟨?_, rfl⟩⟩⟩
    · have apart {y : Nat} (linkedHere : m.Linked b y) : x ≠ y := by
        rintro rfl
        obtain rfl : c = b := Option.some.inj (linked.symm.trans linkedHere)
        exact foreign held mine
      exact ⟨(Function.update_of_ne (apart there) _ _).trans linked,
        Function.update_of_ne (apart here) _ _⟩
    · rw [Shared.unlink_home]
      split_ifs
      · rfl
      · exact home
    · have apart : q ≠ prev := by
        rintro rfl
        cases home.symm.trans here
      exact Function.update_of_ne apart _ _
    · have apart : q ≠ m.pNext prev := by
        rintro rfl
        cases home.symm.trans there
      rwa [Shared.unlink_old, if_neg apart] at old
  | free p mem quiet =>
    refine ⟨fun _ _ => rfl, fun _ _ _ here => ⟨here, rfl⟩, fun _ => .rfl, fun _ _ safe => safe, rfl,
      fun q taken home notMine => ⟨?_, home, rfl, fun _ old => ⟨old, rfl⟩⟩⟩
    have ne : q ≠ p := by
      rintro rfl
      exact notMine mem
    exact (Function.update_of_ne ne _ _).trans taken

theorem Before.frame {v : Int} {prev : Nat} (shape : Shape list m) (before : Before list m v prev)
    (frame : Frame m m' u owned) (held : m.urcuSpin (list.hash v) = some u) :
    Before list m' v prev ∧ m'.pNext prev = m.pNext prev := by
  obtain ⟨lo, hi, here, below⟩ := before
  obtain ⟨here', next⟩ := frame.bucket _ _ held here
  exact ⟨⟨lo, hi, here', by rwa [frame.val _ (shape.home _ _ here).1]⟩, next⟩

theorem Thread.freePtrs_owns {th : Thread} {q : Nat} (walking : ∀ v k, th.pc ≠ .free v k)
    (mem : q ∈ th.freePtrs) : q ∈ th.owns := by
  obtain ⟨pc, freePtrs, times⟩ := th
  cases pc with
  | free v k => exact absurd rfl (walking v k)
  | _ => exact List.mem_append_right _ mem

theorem Knows.frame {th : Thread} (shape : Shape list m) (ok : Ok cfg list m u th)
    (frame : Frame m m' u owned) (apart : ∀ q ∈ th.owns, q ∉ owned) : Knows cfg list m' u th := by
  have safe {x : Nat} (reading : th.pc.reading = true) (h : m.Safe u x) : m'.Safe u x :=
    frame.safe x (ok.inside.trans reading) h
  have held {b : Nat} (locked : th.pc.locked list = some b) : m.urcuSpin b = some u :=
    (ok.locked b).mpr locked
  have node {q : Nat} (mem : q ∈ th.owns) := frame.node q (ok.owned q mem).1 (ok.owned q mem).2
    (apart q mem)
  have val {b x : Nat} (here : m.Linked b x) : m'.val x = m.val x := frame.val x (shape.home x b here).1
  have knows := ok.knows
  obtain ⟨pc, freePtrs, times⟩ := th
  have ptrs {q : Nat} (walking : ∀ v k, pc ≠ .free v k) (mem : q ∈ freePtrs) := node
    (Thread.freePtrs_owns walking mem)
  -- the node behind `prev`
  have after {v : Int} {prev next : Nat} (before : Before list m v prev) (links : m.pNext prev = next) :
      m.Linked (list.hash v) next :=
    links ▸ shape.next_linked before.here (shape.ne_max before.here (before.below.trans before.hi))
  cases pc with
  | idle | done | urcuFree | readerLock | writerLock => exact knows
  | loadNext op v prev =>
    cases op with
    | contains =>
      obtain ⟨hi, stand, below⟩ := knows
      refine ⟨hi, safe rfl stand, ?_⟩
      rcases stand with linked | old
      · obtain ⟨b, here⟩ := Option.ne_none_iff_exists'.mp linked
        rwa [val here]
      · rwa [frame.val _ (shape.old prev u old).2.1]
    | _ => exact (Before.frame shape knows frame (held rfl)).1
  | loadVal op v prev next =>
    cases op with
    | contains => exact ⟨knows.1, safe rfl knows.2.1, safe rfl knows.2.2⟩
    | _ =>
      obtain ⟨before, same⟩ := Before.frame shape knows.1 frame (held rfl)
      exact ⟨before, same.trans knows.2⟩
  | readerUnlock v prev next result => exact ⟨safe rfl knows.1, safe rfl knows.2⟩
  | malloc v prev next =>
    obtain ⟨before, same⟩ := Before.frame shape knows.1 frame (held rfl)
    exact ⟨before, same.trans knows.2.1, by rw [val (after knows.1 knows.2.1)]; exact knows.2.2⟩
  | assign v prev next new =>
    obtain ⟨before, links, above, isVal, newLinks⟩ := knows
    obtain ⟨before', same⟩ := before.frame shape frame (held rfl)
    have mine : new ∈ (Thread.mk (.assign v prev next new) freePtrs times).owns :=
      List.mem_append_left _ (List.mem_singleton.mpr rfl)
    refine ⟨before', same.trans links, by rwa [val (after before links)], ?_, ?_⟩
    · rwa [frame.val new (ok.owned new mine).1]
    · exact (node mine).2.2.1.trans newLinks
  | testVal v prev next =>
    obtain ⟨before, same⟩ := Before.frame shape knows.1 frame (held rfl)
    exact ⟨before, same.trans knows.2⟩
  | loadN v prev next =>
    obtain ⟨before, same⟩ := Before.frame shape knows.1 frame (held rfl)
    exact ⟨before, same.trans knows.2.1, (val (after knows.1 knows.2.1)).trans knows.2.2⟩
  | unlink v prev next n =>
    obtain ⟨before, links, isVal, isN⟩ := knows
    obtain ⟨before', same⟩ := before.frame shape frame (held rfl)
    have there := after before links
    exact ⟨before', same.trans links, (val there).trans isVal,
      (frame.bucket _ _ (held rfl) there).2.trans isN⟩
  | writerUnlock op v prev next n result =>
    obtain ⟨here, rest, gone⟩ := knows
    have kept {x : Nat} (here : m.Linked (list.hash v) x) : m'.Linked (list.hash v) x :=
      (frame.bucket _ _ (held rfl) here).1
    exact ⟨kept here, fun a e => kept (rest a e), gone.imp_right kept⟩
  | readTimes v i =>
    intro p mem r lt old
    obtain ⟨was, time⟩ := (ptrs (by rintro _ _ ⟨⟩) mem).2.2.2 r old
    rw [time]
    exact knows p mem r lt was
  | wait v i =>
    intro p mem r lt old
    obtain ⟨was, time⟩ := (ptrs (by rintro _ _ ⟨⟩) mem).2.2.2 r old
    rw [time]
    exact knows p mem r lt was
  | free v k =>
    intro p mem r lt
    by_contra old
    obtain ⟨was, -⟩ := (node mem).2.2.2 r (Bool.eq_true_of_not_eq_false old)
    cases (knows p mem r lt).symm.trans was

theorem Ok.frame {th : Thread} (shape : Shape list m) (ok : Ok cfg list m u th)
    (frame : Frame m m' u owned) (apart : ∀ q ∈ th.owns, q ∉ owned) : Ok cfg list m' u th := by
  refine ⟨fun q mem => ?_, ok.nodup, ?_, fun b => (frame.spin b).trans (ok.locked b),
    Knows.frame shape ok frame apart⟩
  · obtain ⟨taken, home, -⟩ :=
      frame.node q (ok.owned q mem).1 (ok.owned q mem).2 (apart q mem)
    exact ⟨taken, home⟩
  · show (m'.time u % 2 == 0) = _
    rw [frame.time]
    exact ok.inside

end Frame

/-! ### The thread that steps -/

section Step
variable {cfg : Config} {list : HashList} {m m' : Shared} {t : Nat} {th th' : Thread}

theorem HashList.hash_lt (list : HashList) (v : Int) : list.hash v < list.nBuckets :=
  Nat.mod_lt _ list.pos

theorem Ok.local_ (ok : Ok cfg list m t th) (owns : th'.owns.Perm th.owns)
    (reading : th'.pc.reading = th.pc.reading) (locked : th'.pc.locked list = th.pc.locked list)
    (knows : Knows cfg list m t th') : Ok cfg list m t th' := by
  refine ⟨fun q mem => ok.owned q (owns.mem_iff.mp mem), owns.nodup_iff.mpr ok.nodup, ?_, fun b => ?_,
    knows⟩
  · rw [reading]
    exact ok.inside
  · rw [locked]
    exact ok.locked b

theorem Before.start (shape : Shape list m) {v : Int} (lo : 0 ≤ v) (hi : v < listValMax) :
    Before list m v (list.pHead (list.hash v)) := by
  obtain ⟨here, val⟩ := shape.head _ (list.hash_lt v)
  refine ⟨lo, hi, here, ?_⟩
  rw [val]
  exact lt_of_lt_of_le (by decide) lo

theorem Before.outer {v : Int} {prev : Nat} (shape : Shape list m) (before : Before list m v prev) :
    prev ≠ list.pMax (list.hash v) :=
  shape.ne_max before.here (before.below.trans before.hi)

/-- A section moves on to a node that it may stand on. -/
theorem Shared.Safe.next {r x : Nat} (shape : Shape list m) (stand : m.Safe r x)
    (below : m.val x < listValMax) : m.Safe r (m.pNext x) := by
  rcases stand with linked | old
  · obtain ⟨b, here⟩ := Option.ne_none_iff_exists'.mp linked
    have there : m.home (m.pNext x) = some b := shape.next_linked here (shape.ne_max here below)
    exact .inl fun e => by cases there.symm.trans e
  · exact (shape.old x r old).2.2

theorem setSpin_self {b c : Nat} (locked : ∀ c, m.urcuSpin c = some t → c = b) :
    (m.setSpin b none).urcuSpin c ≠ some t := by
  show Function.update m.urcuSpin b none c ≠ some t
  by_cases eq : c = b
  · rw [eq, Function.update_self]
    rintro ⟨⟩
  · rw [Function.update_of_ne eq]
    exact fun mine => eq (locked c mine)

/-- A step changes the memory as it may, and its thread knows what it holds afterwards. -/
structure Steps (cfg : Config) (list : HashList) (m : Shared) (t : Nat) (th : Thread)
    (e : Shared × Thread) : Prop where
  change : Change list m t th.owns e.1
  ok : Ok cfg list e.1 t e.2
  fresh : ∀ q ∈ e.2.owns, q ∈ th.owns ∨ m.home q ≠ none ∨ m.used q = false

theorem Ok.steps (ok : Ok cfg list m t th) (owns : th'.owns.Perm th.owns)
    (reading : th'.pc.reading = th.pc.reading) (locked : th'.pc.locked list = th.pc.locked list)
    (knows : Knows cfg list m t th') : Steps cfg list m t th (m, th') :=
  ⟨.same, ok.local_ owns reading locked knows, fun _ mem => .inl (owns.mem_iff.mp mem)⟩

theorem libStep_steps (shape : Shape list m) (ok : Ok cfg list m t th)
    (rest : ∀ r, cfg.threads ≤ r → m.inside r = false) {e : Shared × Thread}
    (stepped : libStep cfg list m t th = some e) : Steps cfg list m t th e := by
  obtain ⟨owned, nodup, inside, locked, knows⟩ := id ok
  obtain ⟨pc, freePtrs, times⟩ := th
  cases pc with
  | idle | done | malloc => cases stepped
  | readerLock v =>
    obtain rfl := Option.some.inj stepped
    obtain ⟨lo, hi⟩ := knows
    have start := Before.start shape lo hi
    refine ⟨.readerLock inside, ⟨owned, nodup, ?_, locked, hi, .inl ?_, start.below⟩, fun _ => .inl⟩
    · have odd : ¬ (m.time t % 2 == 0) = true := Bool.eq_false_iff.mp inside
      have odd : m.time t % 2 = 1 := by
        rw [beq_iff_eq] at odd
        omega
      show (Function.update m.time t _ t % 2 == 0) = true
      rw [Function.update_self, beq_iff_eq]
      omega
    · exact fun e => by cases start.here.symm.trans e
  | writerLock op v =>
    simp only [libStep] at stepped
    split_ifs at stepped with isFree
    obtain rfl := Option.some.inj stepped
    obtain ⟨lo, hi, writes⟩ := knows
    have start := Before.start shape lo hi
    have isLocked : (Pc.loadNext op v (list.pHead (list.hash v))).locked list = some (list.hash v) := by
      cases op
      · exact absurd rfl writes
      · rfl
      · rfl
    refine ⟨.lock _ isFree, ⟨owned, nodup, ?_, fun b => ?_, ?_⟩, fun _ => .inl⟩
    · refine inside.trans ?_
      cases op
      · exact absurd rfl writes
      · rfl
      · rfl
    · show Function.update m.urcuSpin (list.hash v) (some t) b = some t ↔ _ = some b
      rw [show (Thread.go _ (Pc.loadNext op v (list.pHead (list.hash v)))).pc.locked list = _ from isLocked]
      by_cases eq : b = list.hash v
      · rw [eq, Function.update_self]
        simp
      · rw [Function.update_of_ne eq]
        refine ⟨fun mine => ?_, fun e => absurd (Option.some.inj e).symm eq⟩
        cases (locked b).mp mine
    · cases op
      · exact absurd rfl writes
      · exact ⟨lo, hi, start.here, start.below⟩
      · exact ⟨lo, hi, start.here, start.below⟩
  | loadNext op v prev =>
    obtain rfl := Option.some.inj stepped
    cases op with
    | contains =>
      obtain ⟨hi, stand, below⟩ := knows
      exact ok.steps .rfl rfl rfl ⟨hi, stand, stand.next shape (below.trans hi)⟩
    | _ => exact ok.steps .rfl rfl rfl ⟨knows, rfl⟩
  | loadVal op v prev next =>
    simp only [libStep] at stepped
    split_ifs at stepped with below
    · obtain rfl := Option.some.inj stepped
      cases op with
      | contains => exact ok.steps .rfl rfl rfl ⟨knows.1, knows.2.2, below⟩
      | _ =>
        obtain ⟨before, rfl⟩ := knows
        exact ok.steps .rfl rfl rfl
          ⟨before.lo, before.hi, shape.next_linked before.here (before.outer shape), below⟩
    · obtain rfl := Option.some.inj stepped
      cases op with
      | contains => exact ok.steps .rfl rfl rfl knows.2
      | add =>
        obtain ⟨before, rfl⟩ := knows
        simp only [found]
        split_ifs with absent
        · exact ok.steps .rfl rfl rfl ⟨before, rfl, by omega⟩
        · exact ok.steps .rfl rfl rfl ⟨before.here, by rintro _ ⟨⟩,
            .inr (shape.next_linked before.here (before.outer shape))⟩
      | remove => exact ok.steps .rfl rfl rfl knows
  | readerUnlock v prev next result =>
    obtain rfl := Option.some.inj stepped
    refine ⟨.readerUnlock, ⟨owned, nodup, ?_, locked, trivial⟩, fun _ => .inl⟩
    show (Function.update m.time t _ t % 2 == 0) = false
    rw [Function.update_self, beq_eq_false_iff_ne]
    unfold setBit0
    omega
  | assign v prev next new =>
    obtain rfl := Option.some.inj stepped
    obtain ⟨before, rfl, above, rfl, links⟩ := knows
    have held : m.urcuSpin (list.hash (m.val new)) = some t := (locked _).mpr rfl
    have outer := before.outer shape
    have there := shape.next_linked before.here outer
    have new_mem : new ∈ (Thread.mk (.assign (m.val new) prev (m.pNext prev) new) freePtrs times).owns :=
      List.mem_cons_self
    have other {x : Nat} (linked : m.Linked (list.hash (m.val new)) x) : x ≠ new := by
      rintro rfl
      cases (owned x new_mem).2.symm.trans linked
    refine ⟨.link _ prev new held before.here outer new_mem links before.below above,
      ⟨fun q mem => ?_, (List.nodup_cons.mp nodup).2, inside, locked,
        (Shared.link_linked (other before.here)).mpr before.here, fun a e => ?_,
        .inr ((Shared.link_linked (other there)).mpr there)⟩,
      fun q mem => .inl (List.mem_cons_of_mem _ mem)⟩
    · obtain ⟨taken, home⟩ := owned q (List.mem_cons_of_mem _ mem)
      have ne : q ≠ new := by
        rintro rfl
        exact (List.nodup_cons.mp nodup).1 mem
      exact ⟨taken, (Function.update_of_ne ne _ _).trans home⟩
    · cases e
      exact Function.update_self _ _ _
  | testVal v prev next =>
    simp only [libStep] at stepped
    obtain ⟨before, rfl⟩ := knows
    split_ifs at stepped with same
    · obtain rfl := Option.some.inj stepped
      exact ok.steps .rfl rfl rfl ⟨before, rfl, same⟩
    · obtain rfl := Option.some.inj stepped
      exact ok.steps .rfl rfl rfl ⟨before.here, by rintro _ ⟨⟩,
        .inr (shape.next_linked before.here (before.outer shape))⟩
  | loadN v prev next =>
    obtain rfl := Option.some.inj stepped
    exact ok.steps .rfl rfl rfl ⟨knows.1, knows.2.1, knows.2.2, rfl⟩
  | unlink v prev next n =>
    obtain rfl := Option.some.inj stepped
    obtain ⟨before, rfl, isVal, rfl⟩ := knows
    have held : m.urcuSpin (list.hash v) = some t := (locked _).mpr rfl
    have outer := before.outer shape
    have there := shape.next_linked before.here outer
    have inner := shape.ne_max there (isVal ▸ before.hi)
    have after := shape.next_linked there inner
    have up := shape.key_lt before.here outer
    have up' := shape.key_lt there inner
    have keeps {x : Nat} (linked : m.Linked (list.hash v) x) (ne : x ≠ m.pNext prev) :
        (m.unlink prev (m.pNext prev) (m.pNext (m.pNext prev))).Linked (list.hash v) x :=
      (Function.update_of_ne ne _ _).trans linked
    have notMine : m.pNext prev ∉ freePtrs := fun mem => by
      cases (owned _ mem).2.symm.trans there
    refine ⟨.unlink _ prev held before.here outer inner,
      ⟨fun q mem => ?_, List.nodup_cons.mpr ⟨notMine, nodup⟩, inside, locked,
        keeps before.here ?_, fun a e => ?_, .inl ⟨rfl, rfl⟩⟩, fun q mem => ?_⟩
    · rw [Shared.unlink_home]
      rcases List.mem_cons.mp mem with rfl | mem
      · exact ⟨(shape.home _ _ there).1, if_pos rfl⟩
      · obtain ⟨taken, home⟩ := owned q mem
        refine ⟨taken, ?_⟩
        split_ifs
        · rfl
        · exact home
    · intro same
      rw [← same] at up
      exact lt_irrefl _ up
    · cases e
      refine keeps after fun same => ?_
      rw [same] at up'
      exact lt_irrefl _ up'
    · rcases List.mem_cons.mp mem with rfl | mem
      · exact .inr (.inl fun e => by cases there.symm.trans e)
      · exact .inl mem
  | writerUnlock op v prev next n result =>
    obtain rfl := Option.some.inj stepped
    have held : m.urcuSpin (list.hash v) = some t := (locked _).mpr rfl
    have mine (c : Nat) (h : m.urcuSpin c = some t) : c = list.hash v :=
      (Option.some.inj ((locked c).mp h)).symm
    have rests : (unlocked v next result op).reading = false ∧
        (unlocked v next result op).locked list = none ∧
        Knows cfg list (m.setSpin (list.hash v) none) t ⟨unlocked v next result op, freePtrs, times⟩ ∧
        (⟨unlocked v next result op, freePtrs, times⟩ : Thread).owns =
          (⟨.writerUnlock op v prev next n result, freePtrs, times⟩ : Thread).owns := by
      cases op <;> cases result <;> exact ⟨rfl, rfl, trivial, rfl⟩
    obtain ⟨reading, unlocked', knows', owns⟩ := rests
    refine ⟨.unlock _ held, ⟨fun q mem => owned q (owns ▸ mem), ?_, ?_, fun b => ?_, knows'⟩,
      fun q mem => .inl (owns ▸ mem)⟩
    · exact (congrArg List.Nodup owns).mpr nodup
    · exact inside.trans reading.symm
    · refine ⟨fun h => absurd h (setSpin_self mine), fun h => ?_⟩
      cases unlocked'.symm.trans h
  | urcuFree v p =>
    have swap : (freePtrs ++ [p]).Perm (p :: freePtrs) := List.perm_append_comm
    simp only [libStep] at stepped
    split_ifs at stepped
    · obtain rfl := Option.some.inj stepped
      exact ok.steps swap rfl rfl fun _ _ r lt => absurd lt (Nat.not_lt_zero r)
    · obtain rfl := Option.some.inj stepped
      exact ok.steps swap rfl rfl trivial
  | readTimes v i =>
    simp only [libStep] at stepped
    split_ifs at stepped with more
    · obtain rfl := Option.some.inj stepped
      refine ok.steps .rfl rfl rfl fun p mem r lt old => ?_
      show Function.update times i (m.time i) r = _
      by_cases eq : r = i
      · rw [eq, Function.update_self]
      · rw [Function.update_of_ne eq]
        exact knows p mem r (by omega) old
    · obtain rfl := Option.some.inj stepped
      exact ok.steps .rfl rfl rfl fun p mem r lt old => ⟨Nat.zero_le r, knows p mem r (by omega) old⟩
  | wait v i =>
    simp only [libStep] at stepped
    split_ifs at stepped with more gone
    · obtain rfl := Option.some.inj stepped
      refine ok.steps .rfl rfl rfl fun p mem r lt old => ?_
      obtain ⟨le, time⟩ := knows p mem r lt old
      refine ⟨Nat.succ_le_of_lt (lt_of_le_of_ne le ?_), time⟩
      -- the section of `i` that the node waits for would still be open
      rintro rfl
      have even : m.time i % 2 = 0 := beq_iff_eq.mp (shape.old p i old).1
      have time : times i = m.time i := time
      have gone : times i % 2 = 1 ∨ m.time i % 2 = 1 ∨ times i < m.time i := gone
      omega
    · obtain rfl := Option.some.inj stepped
      exact ok.steps .rfl rfl rfl knows
    · obtain rfl := Option.some.inj stepped
      refine ok.steps .rfl rfl rfl fun p mem r lt => ?_
      by_contra old
      obtain ⟨le, -⟩ := knows p mem r lt (Bool.eq_true_of_not_eq_false old)
      omega
  | free v k =>
    simp only [libStep] at stepped
    split at stepped
    · rename_i p at_
      obtain rfl := Option.some.inj stepped
      have split : freePtrs.drop k = p :: freePtrs.drop (k + 1) := by
        obtain ⟨lt, isP⟩ := List.getElem?_eq_some_iff.mp at_
        rw [List.drop_eq_getElem_cons lt, isP]
      have mem : p ∈ freePtrs.drop k := split ▸ List.mem_cons_self
      have later {q : Nat} (mem : q ∈ freePtrs.drop (k + 1)) : q ∈ freePtrs.drop k :=
        split ▸ List.mem_cons_of_mem _ mem
      have nodup' : (p :: freePtrs.drop (k + 1)).Nodup := split ▸ nodup
      have quiet (r : Nat) : m.old p r = false := by
        rcases Nat.lt_or_ge r cfg.threads with lt | ge
        · exact knows p mem r lt
        · by_contra old
          cases (rest r ge).symm.trans (shape.old p r (Bool.eq_true_of_not_eq_false old)).1
      refine ⟨.free p mem quiet, ⟨fun q h => ?_, (List.nodup_cons.mp nodup').2, inside, locked,
        fun q h => knows q (later h)⟩, fun q h => .inl (later h)⟩
      obtain ⟨taken, home⟩ := owned q (later h)
      have ne : q ≠ p := by
        rintro rfl
        exact (List.nodup_cons.mp nodup').1 h
      exact ⟨(Function.update_of_ne ne _ _).trans taken, home⟩
    · rename_i none_
      obtain rfl := Option.some.inj stepped
      have empty : freePtrs.drop k = [] := List.drop_eq_nil_of_le (List.getElem?_eq_none_iff.mp none_)
      exact ok.steps (by rw [show Thread.owns ⟨.free v k, freePtrs, times⟩ = [] from empty]; rfl)
        rfl rfl trivial

theorem malloc_steps (shape : Shape list m) (ok : Ok cfg list m t th) {v : Int} {prev next a : Nat}
    (hpc : th.pc = .malloc v prev next) (ne : a ≠ 0) (unused : m.used a = false) :
    Steps cfg list m t th (m.malloc a v next, th.go (.assign v prev next a)) := by
  obtain ⟨owned, nodup, inside, locked, knows⟩ := id ok
  obtain ⟨pc, freePtrs, times⟩ := th
  obtain rfl : pc = .malloc v prev next := hpc
  obtain ⟨before, rfl, above⟩ := knows
  have fresh {x : Nat} (taken : m.used x = true) : x ≠ a := by
    rintro rfl
    cases unused.symm.trans taken
  have here := (shape.home _ _ before.here).1
  have there := (shape.home _ _ (shape.next_linked before.here (before.outer shape))).1
  have unlinked : m.home a = none := by
    by_contra linked
    obtain ⟨b, linked⟩ := Option.ne_none_iff_exists'.mp linked
    cases unused.symm.trans (shape.home a b linked).1
  have val {x : Nat} (taken : m.used x = true) : (m.malloc a v (m.pNext prev)).val x = m.val x :=
    Function.update_of_ne (fresh taken) _ _
  refine ⟨.malloc a v _ ne unused, ⟨fun q mem => ?_, List.nodup_cons.mpr ⟨?_, nodup⟩, inside, locked,
    ⟨before.lo, before.hi, before.here, ?_⟩, Function.update_of_ne (fresh here) _ _, ?_,
    Function.update_self _ _ _, Function.update_self _ _ _⟩, fun q mem => ?_⟩
  · rcases List.mem_cons.mp mem with rfl | mem
    · exact ⟨Function.update_self _ _ _, unlinked⟩
    · obtain ⟨taken, home⟩ := owned q mem
      exact ⟨(Function.update_of_ne (fresh taken) _ _).trans taken, home⟩
  · exact fun mem => fresh (owned a mem).1 rfl
  · rw [val here]
    exact before.below
  · rw [val there]
    exact above
  · rcases List.mem_cons.mp mem with rfl | mem
    · exact .inr (.inr unused)
    · exact .inl mem

end Step

/-! ### Runs -/

section Run
variable {cfg : Config} {list : HashList} {s s' : State} {t : Nat}

theorem State.set_self {e : Shared × Thread} : (s.set t e).thread t = e.2 := Function.update_self _ _ _

theorem State.set_of_ne {e : Shared × Thread} {u : Nat} (ne : u ≠ t) :
    (s.set t e).thread u = s.thread u := Function.update_of_ne ne _ _

theorem Inv.quiet (inv : Inv cfg list s) {r : Nat} (ge : cfg.threads ≤ r) :
    s.mem.inside r = false := by
  rw [(inv.ok r).inside, inv.rest r ge]
  rfl

theorem Steps.inv {e : Shared × Thread} (inv : Inv cfg list s) (lt : t < cfg.threads)
    (steps : Steps cfg list s.mem t (s.thread t) e) : Inv cfg list (s.set t e) := by
  have own := (inv.ok t).owned
  have foreign {u : Nat} (ne : u ≠ t) : ∀ q ∈ (s.thread u).owns, q ∉ e.2.owns := fun q mem mine => by
    obtain ⟨taken, home⟩ := (inv.ok u).owned q mem
    rcases steps.fresh q mine with old | linked | unused
    · exact inv.apart u t ne q mem old
    · exact linked home
    · cases unused.symm.trans taken
  refine ⟨steps.change.shape inv.shape own, fun u => ?_, fun u w ne q mem mem' => ?_, fun u ge => ?_⟩
  · by_cases eq : u = t
    · rw [eq, State.set_self]
      exact steps.ok
    · rw [State.set_of_ne eq]
      exact (inv.ok u).frame inv.shape (steps.change.frame inv.shape own eq) (inv.apart u t eq)
  · by_cases hu : u = t
    · rw [hu, State.set_self] at mem
      rw [State.set_of_ne (fun e => ne (hu.trans e.symm))] at mem'
      exact foreign (fun e => ne (hu.trans e.symm)) q mem' mem
    · rw [State.set_of_ne hu] at mem
      by_cases hw : w = t
      · rw [hw, State.set_self] at mem'
        exact foreign hu q mem mem'
      · rw [State.set_of_ne hw] at mem'
        exact inv.apart u w ne q mem mem'
  · rw [State.set_of_ne (show u ≠ t by omega)]
    exact inv.rest u ge

theorem step_inv (inv : Inv cfg list s) {a : Act} (stepped : step cfg list s a = some s') :
    Inv cfg list s' := by
  have runs {t : Nat} {pc : Pc} (hpc : (s.thread t).pc = pc) (busy : pc ≠ .idle) : t < cfg.threads := by
    by_contra ge
    exact busy (hpc.symm.trans (inv.rest t (Nat.le_of_not_lt ge)))
  cases a with
  | call t op v =>
    simp only [step] at stepped
    split_ifs at stepped with allowed
    obtain rfl := Option.some.inj stepped
    obtain ⟨lt, atRest, lo, hi⟩ := allowed
    refine Steps.inv inv lt ?_
    have ok := inv.ok t
    generalize s.thread t = th at ok atRest ⊢
    obtain ⟨pc, freePtrs, times⟩ := th
    cases pc with
    | idle | done =>
      cases op with
      | contains => exact ok.steps .rfl rfl rfl ⟨lo, hi⟩
      | add => exact ok.steps .rfl rfl rfl ⟨lo, hi, by rintro ⟨⟩⟩
      | remove => exact ok.steps .rfl rfl rfl ⟨lo, hi, by rintro ⟨⟩⟩
    | _ => cases atRest
  | lib t =>
    obtain ⟨e, effect, rfl⟩ := Option.map_eq_some_iff.mp stepped
    have lt : t < cfg.threads := runs rfl fun idle => by
      simp only [libStep, idle] at effect
      cases effect
    exact Steps.inv inv lt (libStep_steps inv.shape (inv.ok t) (fun _ => inv.quiet) effect)
  | malloc t a =>
    simp only [step] at stepped
    split at stepped
    · rename_i v prev next hpc
      split_ifs at stepped with allowed
      obtain rfl := Option.some.inj stepped
      exact Steps.inv inv (runs hpc (by rintro ⟨⟩))
        (malloc_steps inv.shape (inv.ok t) hpc allowed.1 allowed.2)
    · cases stepped

theorem init_shape (list : HashList) : Shape list (State.init list).mem := by
  have linked {a b : Nat} : (State.init list).mem.Linked b a ↔
      b < list.nBuckets ∧ (a = list.pHead b ∨ a = list.pMax b) := list.bucket_iff a b
  have head {b : Nat} (lt : b < list.nBuckets) : list.bucket (list.pHead b) = some b :=
    (list.bucket_iff _ b).mpr ⟨lt, .inl rfl⟩
  have max {b : Nat} (lt : b < list.nBuckets) : list.bucket (list.pMax b) = some b :=
    (list.bucket_iff _ b).mpr ⟨lt, .inr rfl⟩
  have headVal {b : Nat} (lt : b < list.nBuckets) :
      (State.init list).mem.val (list.pHead b) = listValMin := by
    simp only [State.init, head lt, if_true]
  have maxVal {b : Nat} (lt : b < list.nBuckets) :
      (State.init list).mem.val (list.pMax b) = listValMax := by
    simp only [State.init, max lt, if_neg (list.ne b lt).symm]
  have headNext {b : Nat} (lt : b < list.nBuckets) :
      (State.init list).mem.pNext (list.pHead b) = list.pMax b := by
    simp only [State.init, head lt, if_true]
  refine ⟨?_, fun a b here => ⟨?_, (linked.mp here).1⟩, fun b lt => ⟨head lt, headVal lt⟩,
    fun b lt => ⟨max lt, maxVal lt⟩, fun b lt => ?_, fun b lt => ⟨fun a here outer => ?_,
    fun a here outer => ?_, fun a here => ?_⟩, fun a b here => ?_, by rintro _ _ ⟨⟩⟩
  · show (list.bucket 0).isSome = false
    rw [list.nonnull]
    rfl
  · show (list.bucket a).isSome = true
    rw [show list.bucket a = some b from here]
    rfl
  · simp only [State.init, max lt, if_neg (list.ne b lt).symm]
  · obtain rfl := (linked.mp here).2.resolve_right outer
    rw [headNext lt]
    exact max lt
  · obtain rfl := (linked.mp here).2.resolve_right outer
    rw [headNext lt, headVal lt, maxVal lt]
    decide
  · rw [maxVal lt]
    rcases (linked.mp here).2 with rfl | rfl
    · rw [headVal lt]
      decide
    · exact (maxVal lt).le
  · obtain ⟨lt, rfl | rfl⟩ := linked.mp here
    · exact .refl _
    · exact .head (list.ne b lt) (headNext lt ▸ .refl _)

theorem init_inv (cfg : Config) (list : HashList) : Inv cfg list (State.init list) :=
  ⟨init_shape list, fun _ => ⟨by rintro _ ⟨⟩, List.nodup_nil, rfl, fun _ => ⟨by rintro ⟨⟩, by rintro ⟨⟩⟩,
    trivial⟩, by rintro _ _ _ _ ⟨⟩, fun _ _ => rfl⟩

theorem reachable_inv
    (h : System.Reachable (· = State.init list) (step cfg list) (fun _ _ => True) s) :
    Inv cfg list s :=
  System.Reachable.invariant (Inv cfg list) (by rintro _ rfl; exact init_inv cfg list)
    (fun _ _ _ inv _ stepped => step_inv inv stepped) h

/-! ### The claims of the data structure -/

/-- From a node that a section may stand on, it reaches only such nodes. -/
theorem Shape.reaches {m : Shared} (shape : Shape list m) {r q p : Nat} (stand : m.Safe r q)
    (reaches : m.Reaches q p) : p = 0 ∨ m.Safe r p := by
  induction reaches with
  | refl => exact .inr stand
  | @tail a b _ edge ih =>
    obtain ⟨nonnull, rfl⟩ := edge
    rcases ih.resolve_left nonnull with linked | old
    · obtain ⟨c, here⟩ := Option.ne_none_iff_exists'.mp linked
      by_cases last : a = list.pMax c
      · rw [last]
        exact .inl (shape.maxNext c (shape.home a c here).2)
      · have there : m.home (m.pNext a) = some c := shape.next_linked here last
        exact .inr (.inl fun e => by cases there.symm.trans e)
    · exact .inr (shape.old a r old).2.2

theorem Ok.reads {th : Thread} {m : Shared} (ok : Ok cfg list m t th) (reading : th.pc.reading = true)
    {q : Nat} (mem : q ∈ th.pc.holds) : m.Safe t q := by
  have knows := ok.knows
  obtain ⟨pc, freePtrs, times⟩ := th
  cases pc with
  | loadNext op v prev =>
    cases op with
    | contains =>
      obtain rfl := List.mem_singleton.mp mem
      exact knows.2.1
    | _ => cases reading
  | loadVal op v prev next =>
    cases op with
    | contains =>
      rcases List.mem_pair.mp mem with rfl | rfl
      · exact knows.2.1
      · exact knows.2.2
    | _ => cases reading
  | readerUnlock v prev next result =>
    rcases List.mem_pair.mp mem with rfl | rfl
    · exact knows.1
    · exact knows.2
  | _ => cases reading

/-- What a writer holds under the lock of a bucket is linked, or its own. -/
theorem Ok.writes {th : Thread} {m : Shared} (shape : Shape list m) (ok : Ok cfg list m t th) {b : Nat}
    (locked : th.pc.locked list = some b) {q : Nat} (mem : q ∈ th.pc.holds) :
    m.Linked b q ∨ q ∈ th.owns := by
  have knows := ok.knows
  obtain ⟨pc, freePtrs, times⟩ := th
  have after {v : Int} {prev next : Nat} (before : Before list m v prev) (links : m.pNext prev = next) :
      m.Linked (list.hash v) next :=
    links ▸ shape.next_linked before.here (before.outer shape)
  have pair {v : Int} {prev next : Nat} (before : Before list m v prev) (links : m.pNext prev = next)
      (mem : q ∈ [prev, next]) : m.Linked (list.hash v) q := by
    rcases List.mem_pair.mp mem with rfl | rfl
    · exact before.here
    · exact after before links
  cases pc with
  | loadNext op v prev =>
    cases op with
    | contains => cases locked
    | _ =>
      obtain rfl := Option.some.inj locked
      obtain rfl := List.mem_singleton.mp mem
      exact .inl (Before.here knows)
  | loadVal op v prev next =>
    cases op with
    | contains => cases locked
    | _ =>
      obtain rfl := Option.some.inj locked
      exact .inl (pair knows.1 knows.2 mem)
  | malloc v prev next | loadN v prev next =>
    obtain rfl := Option.some.inj locked
    exact .inl (pair knows.1 knows.2.1 mem)
  | testVal v prev next =>
    obtain rfl := Option.some.inj locked
    exact .inl (pair knows.1 knows.2 mem)
  | assign v prev next new =>
    obtain rfl := Option.some.inj locked
    rcases List.mem_cons.mp mem with rfl | mem
    · exact .inl knows.1.here
    · rcases List.mem_pair.mp mem with rfl | rfl
      · exact .inl (after knows.1 knows.2.1)
      · exact .inr List.mem_cons_self
  | unlink v prev next n =>
    obtain rfl := Option.some.inj locked
    obtain ⟨before, links, isVal, rfl⟩ := knows
    have there := after before links
    rcases List.mem_cons.mp mem with rfl | mem
    · exact .inl before.here
    · rcases List.mem_pair.mp mem with rfl | rfl
      · exact .inl there
      · exact .inl (shape.next_linked there (shape.ne_max there (isVal ▸ before.hi)))
  | writerUnlock op v prev next n result =>
    obtain rfl := Option.some.inj locked
    obtain ⟨here, rest, gone⟩ := knows
    rcases List.mem_cons.mp mem with rfl | mem
    · exact .inl here
    · rcases List.mem_cons.mp mem with rfl | mem
      · rcases gone with ⟨rfl, rfl⟩ | there
        · exact .inr List.mem_cons_self
        · exact .inl there
      · exact .inl (rest q (Option.mem_toList.mp mem))
  | _ => cases locked

theorem Inv.releases (inv : Inv cfg list s) {p : Nat} (releases : s.Releases t p) :
    p ∈ (s.thread t).owns ∧ ∀ r, s.mem.old p r = false := by
  obtain ⟨v, k, hpc, at_⟩ := releases
  have knows := (inv.ok t).knows
  have quiet := fun r => inv.quiet (r := r)
  generalize s.thread t = th at hpc at_ knows ⊢
  obtain ⟨pc, freePtrs, times⟩ := th
  obtain rfl : pc = .free v k := hpc
  have first : (freePtrs.drop k)[0]? = some p := List.getElem?_drop.trans at_
  have mem : p ∈ freePtrs.drop k := List.mem_of_getElem? first
  refine ⟨mem, fun r => ?_⟩
  rcases Nat.lt_or_ge r cfg.threads with lt | ge
  · exact knows p mem r lt
  · by_contra old
    cases (quiet r ge).symm.trans (inv.shape.old p r (Bool.eq_true_of_not_eq_false old)).1

/-- Every bucket stays strictly sorted between its sentinels and has one writer; and when `urcu_free`
passes a node to `free`, the node is allocated, no section holds it or reaches it from a node it
holds, and no writer holds it under the lock of a bucket. -/
theorem rcu_hash_list_safe (cfg : Config) (list : HashList) (s : State)
    (h : System.Reachable (· = State.init list) (step cfg list) (fun _ _ => True) s) :
    (∀ b, b < list.nBuckets → s.mem.val (list.pHead b) = listValMin ∧
      s.mem.val (list.pMax b) = listValMax ∧
      Path s.mem.pNext (list.pMax b) (list.pHead b) (list.pMax b) ∧
      ∀ a, Path s.mem.pNext (list.pMax b) (list.pHead b) a → a ≠ list.pMax b →
        s.mem.val a < s.mem.val (s.mem.pNext a)) ∧
    (∀ t u b, (s.thread t).pc.locked list = some b → (s.thread u).pc.locked list = some b → t = u) ∧
    ∀ t p, s.Releases t p → s.mem.used p = true ∧
      (∀ r, (s.thread r).pc.reading = true → ∀ q ∈ (s.thread r).pc.holds, ¬ s.mem.Reaches q p) ∧
      ∀ r b, (s.thread r).pc.locked list = some b → p ∉ (s.thread r).pc.holds := by
  have inv := reachable_inv h
  refine ⟨fun b lt => ?_, fun t u b ht hu => ?_, fun t p releases => ?_⟩
  · obtain ⟨head, headVal⟩ := inv.shape.head b lt
    have sorted := inv.shape.sorted b lt
    refine ⟨headVal, (inv.shape.max b lt).2, sorted.path_last head, fun a path outer => ?_⟩
    exact sorted.key_lt a (sorted.path head path).1 outer
  · have mine := ((inv.ok t).locked b).mpr ht
    exact Option.some.inj (mine.symm.trans (((inv.ok u).locked b).mpr hu))
  · obtain ⟨mem, quiet⟩ := inv.releases releases
    obtain ⟨taken, home⟩ := (inv.ok t).owned p mem
    refine ⟨taken, fun r reading q holds reaches => ?_, fun r b locked holds => ?_⟩
    · rcases inv.shape.reaches ((inv.ok r).reads reading holds) reaches with rfl | linked | old
      · exact inv.shape.ne_zero taken rfl
      · exact linked home
      · cases (quiet r).symm.trans old
    · have ne : r ≠ t := by
        rintro rfl
        obtain ⟨v, k, hpc, -⟩ := releases
        rw [hpc] at locked
        cases locked
      rcases (inv.ok r).writes inv.shape locked holds with linked | own
      · cases home.symm.trans linked
      · exact inv.apart r t ne p own mem

end Run

def oneBucket : HashList where
  nBuckets := 1
  pos := le_rfl
  le := by decide
  pHead := fun _ => 1
  pMax := fun _ => 2
  bucket := fun a => if a = 1 ∨ a = 2 then some 0 else none
  bucket_iff := fun a b => by
    split_ifs with sentinel
    · rw [Option.some_inj]
      omega
    · exact ⟨by rintro ⟨⟩, fun h => absurd h.2 sentinel⟩
  ne := by decide
  nonnull := by decide

def freeRun : List Act :=
  .call 0 .add 5 :: List.replicate 3 (.lib 0) ++ .malloc 0 3 :: List.replicate 2 (.lib 0) ++
  .call 0 .remove 5 :: List.replicate 12 (.lib 0)

theorem rcu_hash_list_safe_freed : ∃ s : State, s.Releases 0 3 ∧ s.mem.used 3 = true ∧
    (∀ r, (s.thread r).pc.reading = true → ∀ q ∈ (s.thread r).pc.holds, ¬ s.mem.Reaches q 3) ∧
    ∀ r b, (s.thread r).pc.locked oneBucket = some b → 3 ∉ (s.thread r).pc.holds := by
  have reached : ((System.run (System.guarded (step ⟨1, 1⟩ oneBucket) fun _ _ => True)
      (State.init oneBucket) freeRun).any fun s =>
        decide ((s.thread 0).pc = .free 5 0 ∧ (s.thread 0).freePtrs = [3])) = true := by
    decide +kernel
  have start : State.init oneBucket = State.init oneBucket := rfl
  obtain ⟨s, h, facts⟩ := System.exists_reachable start reached
  have h := h.mono_init fun _ => Eq.symm
  obtain ⟨pc, freePtrs⟩ := of_decide_eq_true facts
  have releases : s.Releases 0 3 := ⟨5, 0, pc, by rw [freePtrs]; rfl⟩
  exact ⟨s, releases, (rcu_hash_list_safe ⟨1, 1⟩ oneBucket s h).2.2 0 3 releases⟩

end ReadLogUpdate.Rcu
