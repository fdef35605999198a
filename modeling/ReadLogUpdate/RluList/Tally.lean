import ReadLogUpdate.RluList.Newest

/-!
# What the results of the calls count
-/

namespace ReadLogUpdate.RluList

open Harris (ListT listValMin listValMax)
open Chain

variable {cfg : Config} {init : Nat → Nat → Word} {list : ListT} {s s' s₀ : State} {t : Nat}

theorem Foreseen.holding (h : Foreseen cfg list init s) (words : 2 ≤ cfg.objWords) :
    ∃ S, Holding init list s S :=
  ((h.inv words).listed.newest_isList h.known.sound).lists

/-- The set that an atomic set is after the calls `es`, the last first, if it answers 1 to every add
and remove of them that returned 1. -/
def serial : List Harris.Return → Option (Finset Int)
  | [] => some ∅
  | r :: es => (serial es).bind fun S =>
    if r.op ≠ .contains ∧ r.result = true then
      if (Sequential.apply S r.key r.op).1 = true then some (Sequential.apply S r.key r.op).2
      else none
    else some S

theorem serial_settle {es : List Harris.Return} {S : Finset Int} {r : Harris.Return}
    (here : serial es = some S)
    (right : r.result = true → (r.op = .add → r.key ∉ S) ∧ (r.op = .remove → r.key ∈ S)) :
    serial (r :: es) = some (applied r S) := by
  obtain ⟨op, w, b⟩ := r
  rw [serial, here, Option.bind_some]
  cases b with
  | false =>
    rw [if_neg (by simp)]
    cases op <;> rfl
  | true =>
    obtain ⟨absent, present⟩ := right rfl
    cases op with
    | contains => rfl
    | add =>
      have absent : w ∉ S := absent rfl
      simp [Sequential.apply, applied, absent]
    | remove =>
      have present : w ∈ S := present rfl
      simp [Sequential.apply, applied, present]

structure Tallies (es : List Harris.Return) (S : Finset Int) : Prop where
  ordered : serial es = some S
  count : ∀ v, es.count ⟨.add, v, true⟩ = es.count ⟨.remove, v, true⟩ + if v ∈ S then 1 else 0
  size : (S.card : Int) = Harris.expectedSize es

theorem Tallies.settle {es : List Harris.Return} {S : Finset Int} {r : Harris.Return}
    (tallies : Tallies es S)
    (right : r.result = true → (r.op = .add → r.key ∉ S) ∧ (r.op = .remove → r.key ∈ S)) :
    Tallies (r :: es) (applied r S) := by
  have ordered := serial_settle tallies.ordered right
  obtain ⟨op, w, b⟩ := r
  have count (op' : Harris.Op) (v : Int) : ((⟨op, w, b⟩ : Harris.Return) :: es).count ⟨op', v, true⟩ =
      es.count ⟨op', v, true⟩ + if op = op' ∧ w = v ∧ b = true then 1 else 0 := by
    rw [List.count_cons]
    simp only [beq_iff_eq, Harris.Return.mk.injEq]
  have size : Harris.expectedSize (⟨op, w, b⟩ :: es) =
      Harris.Return.diff ⟨op, w, b⟩ + Harris.expectedSize es := by
    unfold Harris.expectedSize
    rw [List.map_cons, List.sum_cons]
  by_cases changes : op ≠ .contains ∧ b = true
  · obtain ⟨other, rfl⟩ := changes
    obtain ⟨absent, present⟩ := right rfl
    cases op with
    | contains => exact absurd rfl other
    | add =>
      have absent : w ∉ S := absent rfl
      refine ⟨ordered, fun v => ?_, ?_⟩
      · rw [count, count, tallies.count v]
        by_cases eq : w = v
        · subst eq
          simp [applied, absent]
        · simp [applied, eq, Ne.symm eq]
      · rw [size, ← tallies.size]
        show ((insert w S).card : Int) = 1 + S.card
        rw [Finset.card_insert_of_notMem absent]
        omega
    | remove =>
      have present : w ∈ S := present rfl
      refine ⟨ordered, fun v => ?_, ?_⟩
      · rw [count, count, tallies.count v]
        by_cases eq : w = v
        · subst eq
          simp [applied, present]
        · simp [applied, eq, Ne.symm eq]
      · rw [size, ← tallies.size]
        show ((S.erase w).card : Int) = -1 + S.card
        have positive := Finset.card_pos.mpr ⟨w, present⟩
        rw [Finset.card_erase_of_mem present]
        omega
  · have same : applied ⟨op, w, b⟩ S = S := by
      cases op <;> cases b <;> simp [applied] at changes ⊢
    have nothing : Harris.Return.diff ⟨op, w, b⟩ = 0 := by
      cases op <;> cases b <;> simp [Harris.Return.diff] at changes ⊢
    rw [same] at ordered ⊢
    refine ⟨ordered, fun v => ?_, ?_⟩
    · have unchanged (op' : Harris.Op) (other : op' ≠ .contains) :
          (⟨op, w, b⟩ :: es : List Harris.Return).count ⟨op', v, true⟩ = es.count ⟨op', v, true⟩ := by
        rw [count, if_neg, Nat.add_zero]
        rintro ⟨rfl, -, is⟩
        exact changes ⟨other, is⟩
      rw [unchanged .add (by simp), unchanged .remove (by simp)]
      exact tallies.count v
    · rw [size, nothing, tallies.size, Int.zero_add]

theorem run_tallies (start : Start list init s₀) (words : 2 ≤ cfg.objWords) {es : List Harris.Return}
    (run : System.Records (foresee cfg list) (Allowed list) settled s₀ es s) :
    ∃ S, Holding init list s S ∧ Tallies es S := by
  induction run with
  | start =>
    refine ⟨∅, ?_, rfl, fun v => by simp, rfl⟩
    unfold Holding
    rw [start.rlu]
    exact start.lists
  | @step es s s' a run allowed hs ih =>
    obtain ⟨S, holding, tallies⟩ := ih
    have h : Foreseen cfg list init s := run.reachable (.start start)
    have updates := foresee_updates (h.inv words) h.known (Foreseen.known (h.step allowed hs)) words
      allowed hs holding
    cases event : settled a s' with
    | none => exact ⟨S, updates.quiet event, tallies⟩
    | some r =>
      obtain ⟨holding', right⟩ := updates.settles r event
      exact ⟨_, holding', tallies.settle right⟩

theorem finished_idle (h : Foreseen cfg list init s) (finished : (s.rlu.thread t).pc = .finished) :
    (s.rlu.thread t).flight = none ∧ ∀ ctr, ¬ (s.rlu.thread t).Unpublished ctr := by
  have control := (h.known.sound.wf.threads t).control
  rw [finished] at control
  have drains : (s.rlu.thread t).Drains := reachable_drains (fun _ _ ok _ => ok.2) h.rlu.reachable
  have empty := drains.again (.inr finished)
  refine ⟨control.2.2.1, fun ctr on => ?_⟩
  obtain ⟨-, ge, lt | ⟨-, staged⟩⟩ := on
  · omega
  · have leaving := (Thread.staged_iff.mp staged).1
    rw [finished] at leaving
    cases leaving

theorem finished_memory (h : Foreseen cfg list init s)
    (finished : ∀ t < s.rlu.gCurThreads, (s.rlu.thread t).pc = .finished) {o w : Nat}
    (lt : w < cfg.objWords) : s.rlu.obj o w = s.rlu.newest init o w := by
  have known := h.known
  have idle (t : Nat) : (s.rlu.thread t).flight = none ∧
      ∀ ctr, ¬ (s.rlu.thread t).Unpublished ctr := by
    by_cases started : t < s.rlu.gCurThreads
    · exact finished_idle h (finished t started)
    · rw [known.sound.wf.fresh t (Nat.le_of_not_lt started)]
      refine ⟨rfl, fun ctr on => ?_⟩
      obtain ⟨-, -, lt | ⟨-, staged⟩⟩ := on
      · exact absurd lt (Nat.not_lt_zero _)
      · cases staged
  rw [known.sound.newest_other fun u ctr i on => absurd on ((idle u).2 ctr)]
  refine known.snap.latest.inPlace o (fun c old => ?_) w lt
  obtain ⟨-, v, flight, -⟩ := old
  rw [(idle c.owner).1] at flight
  cases flight

theorem IsList.listSize_iff {used : Nat → Bool} {c : Nat → Nat → Word} (isList : IsList init list used c)
    (zero : used 0 = false) {S : Finset Int}
    (lists : Lists (next c) (key init) list.pHead list.pMax S) (r : Int) :
    Sequential.ListSize list (next c) r ↔ r = S.card ∧ r < 2 ^ 31 := by
  have inner (b : Nat) (path : Path (next c) list.pMax (next c list.pHead) b)
      (outer : b ≠ list.pMax) : next c b ≠ 0 := by
    have here := lists.reached_next (.head list.ne path) outer
    intro eq
    rw [eq] at here
    have use := isList.reached _ here
    rw [zero] at use
    cases use
  obtain ⟨enough, exact_⟩ := Sequential.listSizeLoop_counts lists.counts 0 isList.last inner
  constructor
  · rintro ⟨fuel, found⟩
    obtain ⟨rfl, none | small⟩ := exact_ fuel r found <;> omega
  · rintro ⟨rfl, small⟩
    refine ⟨S.card + 1, ?_⟩
    rw [enough (by omega)]
    exact congrArg some (Int.zero_add _)

end ReadLogUpdate.RluList
