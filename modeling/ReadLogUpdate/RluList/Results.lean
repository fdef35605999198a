import ReadLogUpdate.RluList.Stores

/-!
# What the calls return

Every call answers for the sorted list that its section sees. The calls that succeed count what is
on the newest list, and when the threads have finished that list is in memory.
-/

namespace ReadLogUpdate.RluList

open Harris (ListT listValMin listValMax)
open Chain

variable {cfg : Config} {init : Nat → Nat → Word} {list : ListT} {s s' s₀ : State} {t : Nat}

/-- In every state of every run each version is a sorted list of plain pointers, and so is what each
section sees. -/
theorem versions_sorted (h : Reaches cfg list init s) (words : 2 ≤ cfg.objWords) :
    (∀ l, (∃ S, Lists (next (at_ s.born s.rlu l)) (key s.born) list.pHead list.pMax S) ∧
      ∀ o, Reached list (at_ s.born s.rlu l) o → (at_ s.born s.rlu l o 1).Plain) ∧
    ∀ t, (s.rlu.thread t).pc.kind = .inSection →
      (∃ S, Lists (next (view s.born s.rlu t)) (key s.born) list.pHead list.pMax S) ∧
      ∀ o, Reached list (view s.born s.rlu t) o → (view s.born s.rlu t o 1).Plain := by
  obtain ⟨init', q, m⟩ := h.mirrored words
  have plain {c : Nat → Nat → Word} (isList : IsList s.born list s.used c) :
      (∃ S, Lists (next c) (key s.born) list.pHead list.pMax S) ∧
        ∀ o, Reached list c o → (c o 1).Plain :=
    ⟨isList.lists, fun o reached => isList.typed.plain o (isList.reached o reached)⟩
  exact ⟨fun l => plain (m.isList_at words l), fun t running => plain (m.isList_view words running)⟩

/-- A deferred write set waits for a second one. -/
def deferring : Config := ⟨.fineGrained, 2, 2, by decide, by decide, by intro h; cases h⟩

def memory : Nat → Nat → Word
  | 1 => node listValMin (.actual 2)
  | 2 => node listValMax .null
  | _ => fun _ => default

def emptyState : State :=
  ⟨ReadLogUpdate.State.init memory, fun _ => .idle, fun a => a == 1 || a == 2, memory⟩

theorem emptyState_start : Start Harris.emptyList memory emptyState :=
  ⟨rfl, ⟨rfl, rfl⟩, ⟨rfl, rfl⟩, rfl, rfl, rfl⟩

def addRun : List Act :=
  [.threadInit, .lib 0, .start 0 .add 5, .client 0] ++ List.replicate 5 (.lib 0) ++
  List.replicate 5 (.client 0) ++ List.replicate 10 (.lib 0) ++ [.client 0] ++
  List.replicate 10 (.lib 0) ++ [.client 0, .malloc 0 3, .client 0]

def returnRun : List Act := [.client 0, .lib 0, .lib 0, .lib 0, .client 0]

theorem exists_run {as : List Act} {good : State → Bool}
    (reached : ((System.run (System.guarded (step deferring Harris.emptyList)
      (Allowed Harris.emptyList)) emptyState as).any good) = true) :
    ∃ s, Reaches deferring Harris.emptyList memory s ∧ good s = true :=
  System.exists_reachable emptyState_start reached

theorem versions_sorted_added : ∃ s, Reaches deferring Harris.emptyList memory s ∧
    s.pc 0 = .done .add 5 true ∧ (s.rlu.thread 0).wsTailCounter = 1 ∧
    ∃ S, Lists (next (at_ s.born s.rlu 0)) (key s.born) 1 2 S := by
  have reached : ((System.run (System.guarded (step deferring Harris.emptyList)
      (Allowed Harris.emptyList)) emptyState (addRun ++ returnRun)).any fun s =>
      decide (s.pc 0 = .done .add 5 true) && decide ((s.rlu.thread 0).wsTailCounter = 1)) = true := by
    decide +kernel
  obtain ⟨s, h, facts⟩ := exists_run reached
  simp only [Bool.and_eq_true, decide_eq_true_eq] at facts
  exact ⟨s, h, facts.1, facts.2, ((versions_sorted h (by decide)).1 0).1⟩

/-- The pointer that the next step of a call reads through, and the word that it reads there. -/
def Pc.reads (ret : Ptr) : Pc → Option (Ptr × Nat)
  | .loadNext _ _ p => some (p, 1)
  | .loadN _ _ p => some (p, 1)
  | .loadVal _ _ _ => some (ret, 0)
  | _ => none

/-- In a run that foresees what it stores, every read is at a node of the list that the section
sees, and a read of `p_next` is before the tail. -/
theorem Foreseen.reads (h : Foreseen cfg list init s) (words : 2 ≤ cfg.objWords)
    (running : (s.rlu.thread t).pc.kind = .inSection) {p : Ptr} {w : Nat}
    (reads : (s.pc t).reads (s.rlu.thread t).ret = some (p, w)) :
    ∃ x, Denotes (s.rlu.thread t) p x ∧ Reached list (view init s.rlu t) x ∧ w < 2 ∧
      (w = 1 → x ≠ list.pMax) := by
  have inv := h.inv words
  have knows := inv.knows t
  have isList := h.known.view_isList inv.listed (h.known.inSection (.inl running)).2
  have is {q : Ptr} {i : Nat} (reads : some (q, i) = some (p, w)) : q = p ∧ i = w :=
    Prod.mk.inj (Option.some.inj reads)
  cases hpc : s.pc t with
  | loadNext op v prev =>
    rw [hpc] at knows reads
    obtain ⟨-, -, x, denotes, behind⟩ := knows
    obtain ⟨rfl, rfl⟩ := is reads
    exact ⟨x, denotes, behind.1, by omega, fun _ => behind.2.1⟩
  | loadVal op v prev =>
    rw [hpc] at knows reads
    obtain ⟨-, x, -, behind, awaits⟩ := knows
    obtain ⟨rfl, rfl⟩ := is reads
    exact ⟨_, (awaits.denotes running).2, (isList.next_node inv.zero behind.1 behind.2.1).1,
      by omega, fun one => absurd one (by omega)⟩
  | loadN v prev n =>
    have range := inv.range t v (by rw [hpc]; rfl)
    rw [hpc] at knows reads
    obtain ⟨-, -, x, -, behind, denotes, key_⟩ := knows
    obtain ⟨rfl, rfl⟩ := is reads
    refine ⟨_, denotes, (isList.next_node inv.zero behind.1 behind.2.1).1, by omega, fun _ eq => ?_⟩
    rw [eq, inv.high] at key_
    omega
  | _ =>
    rw [hpc] at reads
    cases reads

/-- Before its section ends, a call has the result that is right for the list that the section
sees, and a write set if it changes the list. -/
theorem result_for_view (h : Reaches cfg list init s) (words : 2 ≤ cfg.objWords) {op : Harris.Op}
    {v : Int} {result : Bool} (ends : s.pc t = .readerUnlock op v result)
    (running : (s.rlu.thread t).pc.kind = .inSection) :
    ∃ S, Lists (next (view s.born s.rlu t)) (key s.born) list.pHead list.pMax S ∧
      Answers op v result S ∧
      ((s.rlu.thread t).isWriteDetected = true ↔ op ≠ .contains ∧ result = true) := by
  obtain ⟨init', q, m⟩ := h.mirrored words
  have inv := m.foreseen.inv words
  have knows := inv.knows t
  rw [m.shadows.pc, ends] at knows
  obtain ⟨-, answers, commits, writes⟩ := knows
  have thread := m.shadows.rlu.thread
  obtain ⟨S, lists⟩ := (m.isList_seen words running).lists
  refine ⟨S, m.lists_view words running lists, answers S lists, ?_⟩
  rw [← thread]
  refine ⟨fun write => ?_, fun both => writes both.2 both.1⟩
  obtain ⟨is, ready⟩ := commits write
  exact ⟨ready.update, is⟩

theorem result_for_view_add : ∃ s, Reaches deferring Harris.emptyList memory s ∧
    s.pc 0 = .readerUnlock .add 5 true ∧
    ∃ S, Lists (next (view s.born s.rlu 0)) (key s.born) 1 2 S ∧ 5 ∉ S := by
  have reached : ((System.run (System.guarded (step deferring Harris.emptyList)
      (Allowed Harris.emptyList)) emptyState addRun).any fun s =>
      decide (s.pc 0 = .readerUnlock .add 5 true) &&
        decide ((s.rlu.thread 0).pc.kind = .inSection)) = true := by
    decide +kernel
  obtain ⟨s, h, facts⟩ := exists_run reached
  simp only [Bool.and_eq_true, decide_eq_true_eq] at facts
  obtain ⟨S, lists, answers, -⟩ := result_for_view h (by decide) facts.1 facts.2
  exact ⟨s, h, facts.1, S, lists, answers.mp rfl⟩

theorem holding_malloc (h : Reaches cfg list init s) (words : 2 ≤ cfg.objWords) {a : Nat}
    (hs : step cfg list s (.malloc t a) = some s') {S : Finset Int}
    (holding : Holding s.born list s S) : Holding s'.born list s' S := by
  obtain ⟨init', q, m⟩ := h.mirrored words
  simp only [step] at hs
  split at hs
  · rename_i v prev next_ _
    split_ifs at hs with enabled
    obtain rfl := Option.some.inj hs
    have isList : IsList s.born list s.used (s.rlu.newest s.born) :=
      (m.isList_newest words).carry (fun o use => (m.born o use 0 (by omega)).symm)
        fun _ use _ lt => m.newest words use lt
    have born (o : Nat) (use : s.used o = true) (w : Nat) :
        Function.update s.born a (node v (s.rlu.forceActual next_)) o w = s.born o w := by
      rw [Function.update_of_ne]
      rintro rfl
      rw [enabled.2.1] at use
      cases use
    exact isList.carry_lists (fun o use => born o use 0)
      (fun o use w _ => overlay_agree (valueAt_agree (born o use w))) holding
  · cases hs

/-- Where the section of a call ends, the newest list changes as the result says, and nowhere else. -/
theorem section_end_updates (h : Reaches cfg list init s) (words : 2 ≤ cfg.objWords) {a : Act}
    (allowed : Allowed list s a) (hs : step cfg list s a = some s') :
    ∃ S, Holding s.born list s S ∧ Updates s'.born list a s' S := by
  obtain ⟨init', q, m⟩ := h.mirrored words
  obtain ⟨S, holding⟩ := m.foreseen.holding words
  refine ⟨S, m.holding words holding, ?_⟩
  by_cases plain : a.plain = true
  · obtain ⟨⟨q', hs', shadows'⟩, used, born⟩ := m.shadows.step m.foreseen words plain hs
    have allowed' := m.shadows.allowed m.foreseen words allowed
    have reached' : Foreseen cfg list init' q' := m.foreseen.step allowed' hs'
    have m' : Mirrors cfg list init' s' q' := ⟨reached', shadows', by rw [used, born]; exact m.born⟩
    have updates := foresee_updates (m.foreseen.inv words) m.foreseen.known reached'.known words
      allowed' hs' holding
    have events := settled_congr shadows'.pc a
    refine ⟨fun quiet => m'.holding words (updates.quiet (events.trans quiet)), fun r is => ?_⟩
    obtain ⟨holding', right⟩ := updates.settles r (events.trans is)
    exact ⟨m'.holding words holding', right⟩
  · cases a with
    | malloc t a => exact .of_quiet rfl (holding_malloc h words hs (m.holding words holding))
    | _ => exact absurd rfl plain

theorem section_end_updates_add : ∃ s s' S, Reaches deferring Harris.emptyList memory s ∧
    step deferring Harris.emptyList s (.client 0) = some s' ∧
    Holding s.born Harris.emptyList s S ∧ 5 ∉ S ∧ Holding s'.born Harris.emptyList s' (insert 5 S) := by
  have reached : ((System.run (System.guarded (step deferring Harris.emptyList)
      (Allowed Harris.emptyList)) emptyState addRun).any fun s =>
      decide (Allowed Harris.emptyList s (.client 0)) &&
        (step deferring Harris.emptyList s (.client 0)).any fun s' =>
          decide (settled (.client 0) s' = some ⟨.add, 5, true⟩)) = true := by
    decide +kernel
  obtain ⟨s, h, facts⟩ := exists_run reached
  simp only [Bool.and_eq_true, decide_eq_true_eq, Option.any_eq_true] at facts
  obtain ⟨allowed, s', hs, event⟩ := facts
  obtain ⟨S, holding, updates⟩ := section_end_updates h (by decide) allowed hs
  obtain ⟨holding', right⟩ := updates.settles _ event
  exact ⟨s, s', S, h, hs, holding, (right rfl).1 rfl, holding'⟩

/-- In every run the settled adds of a value that succeed are one more than the settled removes if
the value is on the newest list, and as many otherwise. -/
theorem newest_list_tally (start : Start list init s₀) (words : 2 ≤ cfg.objWords)
    {es : List Harris.Return}
    (run : System.Records (step cfg list) (Allowed list) settled s₀ es s) :
    ∃ S, Lists (next (s.rlu.newest s.born)) (key s.born) list.pHead list.pMax S ∧
      ∀ v, es.count ⟨.add, v, true⟩ = es.count ⟨.remove, v, true⟩ + if v ∈ S then 1 else 0 := by
  obtain ⟨init', q₀, q, start', run', shadows, born⟩ := foreseen start words run
  obtain ⟨S, holding, tallies⟩ := run_tallies start' words run'
  have m : Mirrors cfg list init' s q := ⟨run'.reachable (.start start'), shadows, born⟩
  exact ⟨S, m.holding words holding, tallies.count⟩

theorem newest_list_tally_add : ∃ es s, System.Records (step deferring Harris.emptyList)
    (Allowed Harris.emptyList) settled emptyState es s ∧ es = [⟨.add, 5, true⟩] ∧
    ∃ S, Lists (next (s.rlu.newest s.born)) (key s.born) 1 2 S ∧ 5 ∈ S := by
  have reached : ((System.record (System.guarded (step deferring Harris.emptyList)
      (Allowed Harris.emptyList)) settled [] emptyState (addRun ++ returnRun)).any fun r =>
      decide (r.1 = [⟨.add, 5, true⟩])) = true := by
    decide +kernel
  obtain ⟨⟨es, s⟩, ran, facts⟩ := (Option.any_eq_true _ _).mp reached
  have events : es = [⟨.add, 5, true⟩] := of_decide_eq_true facts
  have run := System.Records.of_guarded ran
  obtain ⟨S, lists, counts⟩ := newest_list_tally emptyState_start (by decide) run
  refine ⟨es, s, run, events, S, lists, ?_⟩
  by_contra absent
  have count := counts 5
  rw [if_neg absent, events] at count
  simp at count

/-- The adds and removes that return 1 are, in the order in which their sections end, calls on an
atomic set, and the newest list is that set. -/
theorem updates_serialized (start : Start list init s₀) (words : 2 ≤ cfg.objWords)
    {es : List Harris.Return}
    (run : System.Records (step cfg list) (Allowed list) settled s₀ es s) :
    ∃ S, serial es = some S ∧
      Lists (next (s.rlu.newest s.born)) (key s.born) list.pHead list.pMax S := by
  obtain ⟨init', q₀, q, start', run', shadows, born⟩ := foreseen start words run
  obtain ⟨S, holding, tallies⟩ := run_tallies start' words run'
  have m : Mirrors cfg list init' s q := ⟨run'.reachable (.start start'), shadows, born⟩
  exact ⟨S, tallies.ordered, m.holding words holding⟩

def againRun : List Act :=
  addRun ++ returnRun ++ [.start 0 .add 5, .client 0] ++ List.replicate 5 (.lib 0)

theorem updates_serialized_add : ∃ es s, System.Records (step deferring Harris.emptyList)
    (Allowed Harris.emptyList) settled emptyState es s ∧ es.length = 1 ∧
    s.pc 0 = .derefHead .add 5 ∧ ∃ S, serial es = some S ∧
    Lists (next (s.rlu.newest s.born)) (key s.born) 1 2 S := by
  have reached : ((System.record (System.guarded (step deferring Harris.emptyList)
      (Allowed Harris.emptyList)) settled [] emptyState againRun).any fun r =>
      decide (r.1.length = 1) && decide (r.2.pc 0 = .derefHead .add 5)) = true := by
    decide +kernel
  obtain ⟨⟨es, s⟩, ran, facts⟩ := (Option.any_eq_true _ _).mp reached
  simp only [Bool.and_eq_true, decide_eq_true_eq] at facts
  have run := System.Records.of_guarded ran
  exact ⟨es, s, run, facts.1, facts.2, updates_serialized emptyState_start (by decide) run⟩

/-- When every thread has finished, the list in memory is the newest one: `list_size` on it returns
what `bench.c` adds up from the results, as long as an `int` holds it. -/
theorem finished_list (start : Start list init s₀) (words : 2 ≤ cfg.objWords)
    {es : List Harris.Return} (run : System.Records (step cfg list) (Allowed list) settled s₀ es s)
    (finished : ∀ t < s.rlu.gCurThreads, (s.rlu.thread t).pc = .finished) :
    ∃ S, Lists (next s.rlu.obj) (fun a => (s.rlu.obj a 0).toVal) list.pHead list.pMax S ∧
      (∀ v, es.count ⟨.add, v, true⟩ = es.count ⟨.remove, v, true⟩ + if v ∈ S then 1 else 0) ∧
      ∀ r, Sequential.ListSize list (next s.rlu.obj) r ↔ r = Harris.expectedSize es ∧ r < 2 ^ 31 := by
  obtain ⟨init', q₀, q, start', run', shadows, born⟩ := foreseen start words run
  obtain ⟨S, holding, tallies⟩ := run_tallies start' words run'
  have h : Foreseen cfg list init' q := run'.reachable (.start start')
  have m : Mirrors cfg list init' s q := ⟨h, shadows, born⟩
  have threads : q.rlu.gCurThreads = s.rlu.gCurThreads := by rw [shadows.rlu.rest]
  have finished' (t : Nat) (lt : t < q.rlu.gCurThreads) : (q.rlu.thread t).pc = .finished := by
    rw [shadows.rlu.thread]
    exact finished t (threads ▸ lt)
  have isList := m.isList_newest words
  have same (o : Nat) (use : s.used o = true) (w : Nat) (lt : w < 2) :
      s.rlu.obj o w = q.rlu.newest init' o w :=
    (shadows.rlu.obj o use w (by omega)).symm.trans (finished_memory h finished' (by omega))
  have val (o : Nat) (use : s.used o = true) : s.rlu.obj o 0 = init' o 0 :=
    (same o use 0 (by omega)).trans (isList.typed.val o use)
  have lists := isList.carry_lists val same holding
  have zero : s.used 0 = false := by
    rw [← shadows.used]
    exact (h.inv words).zero
  refine ⟨S, lists, tallies.count, fun r => ?_⟩
  rw [(isList.carry val same).listSize_iff zero lists, tallies.size]

theorem finished_list_add : ∃ es s, System.Records (step deferring Harris.emptyList)
    (Allowed Harris.emptyList) settled emptyState es s ∧ es.length = 1 ∧
    ∀ r, Sequential.ListSize Harris.emptyList (next s.rlu.obj) r ↔
      r = Harris.expectedSize es ∧ r < 2 ^ 31 := by
  have reached : ((System.record (System.guarded (step deferring Harris.emptyList)
      (Allowed Harris.emptyList)) settled [] emptyState
      (addRun ++ returnRun ++ .finish 0 :: List.replicate 43 (.lib 0))).any fun r =>
      decide (r.1.length = 1) && decide (r.2.rlu.gCurThreads = 1) &&
        decide ((r.2.rlu.thread 0).pc.kind = .finished)) = true := by
    decide +kernel
  obtain ⟨⟨es, s⟩, ran, facts⟩ := (Option.any_eq_true _ _).mp reached
  simp only [Bool.and_eq_true, decide_eq_true_eq] at facts
  have run := System.Records.of_guarded ran
  obtain ⟨-, -, -, size⟩ := finished_list emptyState_start (by decide) run fun t lt => by
    obtain rfl : t = 0 := by omega
    exact Pc.eq_finished_of_kind facts.2
  exact ⟨es, s, run, facts.1.1, size⟩

end ReadLogUpdate.RluList
