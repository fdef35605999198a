import ReadLogUpdate.RluList.Calls

/-!
# The end of a section

When a section of an add or a remove ends, its write set is an update of the newest published list:
the two nodes are locked, so nobody else has published them since the section took its version.
-/

namespace ReadLogUpdate.RluList

open Harris (ListT listValMin listValMax)
open Chain

/-- No link that anybody has stored leads to the node `a`. -/
structure Unlinked (init : Nat → Nat → Word) (list : ListT) (s : ReadLogUpdate.State Word) (a : Nat) :
    Prop where
  off : ∀ l, ¬ Reached list (at_ init s l) a
  news : ∀ t ctr, (s.thread t).Unpublished ctr → (splice (s.thread t) ctr).new ≠ a
  objs : ∀ p ∈ s.published, ∀ e ∈ p.objs, e.1 ≠ a

variable {cfg : Config} {init : Nat → Nat → Word} {list : ListT} {used : Nat → Bool}
  {s : ReadLogUpdate.State Word} {t a : Nat}

/-! ### New nodes -/

theorem Listed.unlinked (listed : Listed init list used s) (unused : used a = false) :
    Unlinked init list s a := by
  have ne {o : Nat} (use : used o = true) : o ≠ a := by
    rintro rfl
    rw [unused] at use
    cases use
  exact ⟨fun l reached => ne ((listed.isList l).reached a reached) rfl,
    fun t ctr on => ne (listed.news t ctr on), fun p mem e he => ne (listed.objs p mem e he)⟩

theorem Listed.malloc (listed : Listed init list used s) (unused : used a = false)
    (plain : (init a 1).Plain) : Listed init list (Function.update used a true) s := by
  have unlinked := listed.unlinked unused
  have more {o : Nat} (use : used o = true) : Function.update used a true o = true := by
    by_cases eq : o = a
    · rw [eq, Function.update_self]
    · rw [Function.update_of_ne eq]
      exact use
  refine { listed with
    isList := fun l => ⟨⟨fun o use => ?_, fun o use => ?_⟩, (listed.isList l).lists,
      fun o reached => more ((listed.isList l).reached o reached), (listed.isList l).last⟩
    news := fun t ctr on => more (listed.news t ctr on)
    objs := fun p mem e he => more (listed.objs p mem e he) }
  · by_cases eq : o = a
    · rw [eq, at_, valueAt_of_forall_ne unlinked.objs]
    · rw [Function.update_of_ne eq] at use
      exact (listed.isList l).typed.val o use
  · by_cases eq : o = a
    · rw [eq, at_, valueAt_of_forall_ne unlinked.objs]
      exact plain
    · rw [Function.update_of_ne eq] at use
      exact (listed.isList l).typed.plain o use

theorem Unlinked.step {x : ReadLogUpdate.Act Word} {e : Effect Word} (unlinked : Unlinked init list s a)
    (listed : Listed init list used s) (sound : Sound cfg s)
    (versions : ∀ p ∈ s.published, p.version ≤ s.gWriterVersion) (right : RightSlot s x)
    (act : ActEffect cfg s x t e) (notLeaving : e.1.pc ≠ .readerUnlock) :
    Unlinked init list (s.apply t e.1 e.2) a := by
  have news (u ctr : Nat) (on : ((s.apply t e.1 e.2).thread u).Unpublished ctr) :
      (splice ((s.apply t e.1 e.2).thread u) ctr).new ≠ a := by
    obtain ⟨on, same⟩ := unpublished_back sound right act notLeaving on
    rw [splice_congr same]
    exact unlinked.news u ctr on
  have log := actEffect_log (sound.wf.threads t) right act
  rcases log.publishes (sound.wf.threads t) (sound.grace.acquires t) with
    ⟨published, -⟩ | ⟨idle, -, published, -⟩
  · refine ⟨fun l => ?_, news, ?_⟩
    · unfold at_
      rw [published]
      exact unlinked.off l
    · rw [published]
      exact unlinked.objs
  · have way := pending_onTheWay idle (listed.twins t)
    have isList := listed.isList s.gWriterVersion
    refine ⟨fun l reached => ?_, news, fun p mem o ho => ?_⟩
    · unfold at_ at reached
      rw [published, valueAt_publish versions l] at reached
      split_ifs at reached
      · exact unlinked.off l reached
      · obtain ⟨S, lists⟩ := isList.lists
        unfold Reached at reached
        rw [way.next_eq listed sound] at reached
        rcases (way.allFit listed sound).reached_back lists reached with reached | ⟨w', mem, -, eq⟩
        · exact unlinked.off _ reached
        · obtain ⟨w, hw, rfl⟩ := List.mem_map.mp mem
          exact unlinked.news _ _ (way.unpublished w hw) eq.symm
    · rw [published] at mem
      rcases List.mem_cons.mp mem with rfl | mem
      · obtain ⟨w, hw, i, lt, rfl⟩ := (way.mem o).mp ho
        rintro rfl
        refine unlinked.off s.gWriterVersion ?_
        obtain rfl | rfl : i = 0 ∨ i = 1 := by omega
        · exact (way.twins w hw).fits.reached
        · exact (way.twins w hw).fits.after_reached
      · exact unlinked.objs p mem o ho

/-! ### The write set of a section that ends -/

/-- Thread `t` is in a section, and its write set is an update of the list that it sees. -/
structure Ending (cfg : Config) (init : Nat → Nat → Word) (list : ListT) (used : Nat → Bool)
    (s : ReadLogUpdate.State Word) (t : Nat) : Prop where
  known : Known cfg init s
  listed : Listed init list used s
  here : (s.thread t).pc = .inSection
  twin : Twin init list (view init s t) (s.thread t) (s.thread t).wsTailCounter
  change : Unlinked init list s (splice (s.thread t) (s.thread t).wsTailCounter).new ∨
    (splice (s.thread t) (s.thread t).wsTailCounter).Removes (next (view init s t)) list.pMax

theorem Ending.inSection (ending : Ending cfg init list used s t) :
    (s.thread t).Inside cfg ∧ InSection s t :=
  ending.known.inSection (by rw [ending.here]; exact .inl rfl)

theorem Ending.live (ending : Ending cfg init list used s t) {i : Nat} (lt : i < 2) :
    (s.thread t).Live (s.thread t).wsTailCounter i := by
  have ok := ending.known.sound.wf.threads t
  have pos : (s.thread t).pc.wbPos = fun wb => (wb, 0) := by
    rw [ending.here]
    rfl
  have two := ending.twin.two
  refine (Thread.live_iff pos _ i).mpr ⟨ok.wb_le_tail, .inr ⟨rfl, by omega, ?_⟩⟩
  rw [ending.here]
  exact id

/-- They are none of those of a write set that is on its way. -/
theorem Ending.ne (ending : Ending cfg init list used s t) {u ctr i j : Nat} (lt : i < 2)
    (on : (s.thread u).Unpublished ctr) (lt' : j < 2) :
    ((s.thread u).entry ctr j).pObjActual ≠
      ((s.thread t).entry (s.thread t).wsTailCounter i).pObjActual := by
  intro same
  have sound := ending.known.sound
  have two := (ending.listed.twins u ctr on).two
  obtain ⟨rfl, rfl, -⟩ := sound.locks.entry_inj sound.wf
    ((sound.wf.threads u).live_of_unpublished on (by omega)) (ending.live lt) same
  obtain ⟨-, -, lt | ⟨-, staged⟩⟩ := on
  · exact lt_irrefl _ lt
  · have leaving := (Thread.staged_iff.mp staged).1
    rw [ending.here] at leaving
    cases leaving

theorem Ending.apart (ending : Ending cfg init list used s t) {u ctr : Nat}
    (on : (s.thread u).Unpublished ctr) : (splice (s.thread u) ctr).Apart
      (splice (s.thread t) (s.thread t).wsTailCounter) :=
  ⟨ending.ne (by omega) on (by omega), ending.ne (by omega) on (by omega),
    ending.ne (by omega) on (by omega), ending.ne (by omega) on (by omega)⟩

theorem Ending.version (ending : Ending cfg init list used s t) :
    Twin init list (at_ init s (s.thread t).localVersion) (s.thread t) (s.thread t).wsTailCounter := by
  obtain ⟨-, here⟩ := ending.inSection
  have way := ending.known.way ending.listed here
  have sound := ending.known.sound
  obtain ⟨S, lists⟩ := (ending.listed.isList (s.thread t).localVersion).lists
  obtain ⟨two, val, plain, rest, fits⟩ := ending.twin
  have spliced : next (view init s t) = _ := way.next_eq ending.listed sound
  refine ⟨two, val, plain, ?_, ?_⟩
  · rw [rest]
    unfold view
    rw [overlay_of_forall_ne]
    intro e he same
    obtain ⟨w, hw, i, lt, rfl⟩ := (way.mem e).mp he
    exact ending.ne (by omega) (way.unpublished w hw) lt same
  · rw [spliced] at fits
    refine (way.allFit ending.listed sound).fits_back lists fits (fun w' mem => ?_) fun adds => ?_
    · obtain ⟨w, hw, rfl⟩ := List.mem_map.mp mem
      exact ending.apart (way.unpublished w hw)
    · rcases ending.change with unlinked | removes
      · exact unlinked.off _
      · rw [← spliced] at adds
        exact absurd removes (adds.not_removes ending.twin.fits.after_reached)

/-- What the section sees of its two nodes is what is published. -/
theorem Ending.value (ending : Ending cfg init list used s t) (words : 2 ≤ cfg.objWords) {i : Nat}
    (lt : i < 2) :
    (∀ p ∈ s.published, (s.thread t).localVersion < p.version → ∀ e ∈ p.objs,
      e.1 ≠ ((s.thread t).entry (s.thread t).wsTailCounter i).pObjActual) ∧
    at_ init s (s.thread t).localVersion ((s.thread t).entry (s.thread t).wsTailCounter i).pObjActual 1 =
      newestAt init s ((s.thread t).entry (s.thread t).wsTailCounter i).pObjActual 1 := by
  have known := ending.known
  have held := known.sound.locks.installed t _ i (ending.live lt)
  rw [← (known.sound.wf.threads t).curId] at held
  obtain ⟨untouched, value, -⟩ := known.sound.locked_value known.snap known.pins (known.copied t)
    ending.inSection.1.1 (by rw [ending.here]; simp [ReadLogUpdate.Pc.kind]) held
  obtain ⟨old, new⟩ := value 1 (by omega)
  exact ⟨untouched, old.symm.trans new⟩

theorem Ending.removes (ending : Ending cfg init list used s t) (words : 2 ≤ cfg.objWords)
    (removes : (splice (s.thread t) (s.thread t).wsTailCounter).Removes (next (view init s t)) list.pMax) :
    (splice (s.thread t) (s.thread t).wsTailCounter).Removes (next (newestAt init s)) list.pMax := by
  refine ⟨removes.inner, removes.skip.trans (congrArg Word.addr ?_)⟩
  -- the second node is not pending, so the section sees its link as the version does
  exact (ending.twin.rest.symm.trans ending.version.rest).trans (ending.value words (by omega)).2

theorem Ending.newest (ending : Ending cfg init list used s t) (words : 2 ≤ cfg.objWords) :
    Twin init list (newestAt init s) (s.thread t) (s.thread t).wsTailCounter := by
  obtain ⟨-, here⟩ := ending.inSection
  obtain ⟨two, val, plain, rest, fits⟩ := ending.version
  obtain ⟨untouched, first⟩ := ending.value words (i := 0) (by omega)
  have second := (ending.value words (i := 1) (by omega)).2
  refine ⟨two, val, plain, rest.trans second,
    (ending.listed.beside t _ here).still _ fits.reached untouched, fits.outer,
    (congrArg Word.addr first).symm.trans fits.linked, ?_⟩
  rcases ending.change with unlinked | removes
  · rcases fits.change with adds | removes
    · refine .inl ⟨unlinked.off _, ?_, adds.above, adds.below⟩
      rw [← adds.link]
      unfold next newestAt at_
      rw [valueAt_of_forall_ne unlinked.objs, valueAt_of_forall_ne unlinked.objs]
    · refine absurd ?_ (unlinked.off (s.thread t).localVersion)
      rw [removes.skip]
      exact fits.after_reached.tail ⟨removes.inner, rfl⟩
  · exact .inr (ending.removes words removes)

/-- What it links is linked by no write set on its way. -/
theorem Ending.new_ne (ending : Ending cfg init list used s t) (words : 2 ≤ cfg.objWords) {u ctr : Nat}
    (on : (s.thread u).Unpublished ctr) : (splice (s.thread u) ctr).new ≠
      (splice (s.thread t) (s.thread t).wsTailCounter).new := by
  intro same
  rcases ending.change with unlinked | removes
  · exact unlinked.news u ctr on same
  · have removes := ending.removes words removes
    have fits := (ending.newest words).fits
    have fits' := (ending.listed.twins u ctr on).fits
    obtain ⟨S, lists⟩ := (ending.listed.isList s.gWriterVersion).lists
    rcases fits'.change with adds' | removes'
    · refine adds'.fresh ?_
      rw [same, removes.skip]
      exact lists.reached_next fits.after_reached removes.inner
    · -- two removes that link one node would take the same node off
      refine (ending.apart on).after (lists.next_inj fits'.after_reached fits.after_reached
        removes'.inner removes.inner ?_)
      rw [← removes'.skip, ← removes.skip]
      exact same

abbrev ended (s : ReadLogUpdate.State Word) (t : Nat) : ReadLogUpdate.State Word :=
  s.apply t { s.thread t with runCounter := (s.thread t).runCounter + 1, pc := .readerUnlock } .none

theorem ended_thread {u : Nat} (ne : u ≠ t) : (ended s t).thread u = s.thread u := by
  rw [ended, State.apply_thread, Function.update_of_ne ne]

theorem ended_self : (ended s t).thread t =
    { s.thread t with runCounter := (s.thread t).runCounter + 1, pc := .readerUnlock } := by
  rw [ended, State.apply_thread, Function.update_self]

theorem ended_sets {u : Nat} : ((ended s t).thread u).objWriteSet = (s.thread u).objWriteSet := by
  by_cases eq : u = t
  · rw [eq, ended_self]
  · rw [ended_thread eq]

/-- What is on the way when a section has ended: what was, and its write set. -/
theorem ended_unpublished {u ctr : Nat} (on : ((ended s t).thread u).Unpublished ctr)
    (here : (s.thread t).pc = .inSection) : (s.thread u).Unpublished ctr ∨
      u = t ∧ ctr = (s.thread t).wsTailCounter ∧ (s.thread t).isWriteDetected = true := by
  by_cases eq : u = t
  · subst eq
    rw [ended_self] at on
    obtain ⟨idle, ge, lt | ⟨at_, staged⟩⟩ := on
    · exact .inl ⟨idle, ge, .inl lt⟩
    · exact .inr ⟨rfl, at_, (Thread.staged_iff.mp staged).2⟩
  · rw [ended_thread eq] at on
    exact .inl on

theorem Listed.leave (known : Known cfg init s) (listed : Listed init list used s)
    (words : 2 ≤ cfg.objWords) (here : (s.thread t).pc = .inSection)
    (ending : (s.thread t).isWriteDetected = true → Ending cfg init list used s t)
    (new : (s.thread t).isWriteDetected = true →
      used (splice (s.thread t) (s.thread t).wsTailCounter).new = true) :
    Listed init list used (ended s t) := by
  have same (u ctr : Nat) : splice ((ended s t).thread u) ctr = splice (s.thread u) ctr :=
    splice_congr (by rw [ended_sets])
  refine ⟨listed.isList, fun u ctr on => ?_, fun u ctr on => ?_, fun u v a b ha hb ne => ?_,
    fun r l section_ => ?_, listed.objs⟩
  · have kept : Twin init list (newestAt init s) (s.thread u) ctr := by
      rcases ended_unpublished on here with on | ⟨rfl, rfl, write⟩
      · exact listed.twins u ctr on
      · exact (ending write).newest words
    exact kept.congr (by rw [ended_sets])
  · rw [same]
    rcases ended_unpublished on here with on | ⟨rfl, rfl, write⟩
    · exact listed.news u ctr on
    · exact new write
  · rw [same, same]
    rcases ended_unpublished ha here with ha' | ⟨rfl, rfl, write⟩
    · rcases ended_unpublished hb here with hb | ⟨rfl, rfl, write⟩
      · exact listed.apart u v a b ha' hb ne
      · exact (ending write).new_ne words ha'
    · rcases ended_unpublished hb here with hb | ⟨rfl, rfl, -⟩
      · exact ((ending write).new_ne words hb).symm
      · exact absurd ⟨rfl, rfl⟩ ne
  · have ne : r ≠ t := by
      rintro rfl
      have odd := (known.inSection (t := r) (by rw [here]; exact .inl rfl)).1.1
      rw [ended_self, Thread.sectionVersion_of_kind (by simp [ReadLogUpdate.Pc.kind]), if_neg] at section_
      · cases section_
      · show ¬ ((s.thread r).runCounter + 1) % 2 = 1
        omega
    rw [ended_thread ne] at section_
    refine ⟨fun ctr on => ?_, (listed.beside r l section_).still⟩
    rw [ended_thread ne] at on ⊢
    exact (listed.beside r l section_).own ctr on

theorem Unlinked.leave (unlinked : Unlinked init list s a) (here : (s.thread t).pc = .inSection)
    (new : (s.thread t).isWriteDetected = true →
      (splice (s.thread t) (s.thread t).wsTailCounter).new ≠ a) :
    Unlinked init list (ended s t) a := by
  refine ⟨unlinked.off, fun u ctr on => ?_, unlinked.objs⟩
  have same : splice ((ended s t).thread u) ctr = splice (s.thread u) ctr :=
    splice_congr (by rw [ended_sets])
  rw [same]
  rcases ended_unpublished on here with on | ⟨rfl, rfl, write⟩
  · exact unlinked.news u ctr on
  · exact new write

end ReadLogUpdate.RluList
