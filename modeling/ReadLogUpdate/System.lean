import Mathlib.Logic.Function.Basic
import Mathlib.Logic.Relation
import Mathlib.Data.Option.Basic

/-!
Labelled transition systems with an executable step function. A run is restricted by a
condition on the state before each step and the label of the step; `Reachable` collects the
states such runs reach.
-/

namespace ReadLogUpdate.System

variable {σ α τ β : Type*}

/-- The states reached from `init` by steps that meet `ok`. -/
inductive Reachable (init : σ → Prop) (step : σ → α → Option σ) (ok : σ → α → Prop) : σ → Prop where
  | start {s} : init s → Reachable init step ok s
  | step {s s' a} : Reachable init step ok s → ok s a → step s a = some s' →
      Reachable init step ok s'

/-- Follow a list of labels; `none` when one of them is not enabled. -/
def run (step : σ → α → Option σ) : σ → List α → Option σ
  | s, [] => some s
  | s, a :: as => (step s a).bind fun s' => run step s' as

variable {init : σ → Prop} {step : σ → α → Option σ} {ok ok' : σ → α → Prop}

theorem Reachable.invariant (Inv : σ → Prop) (start : ∀ s, init s → Inv s)
    (preserve : ∀ s a s', Inv s → ok s a → step s a = some s' → Inv s')
    {s : σ} (h : Reachable init step ok s) : Inv s := by
  induction h with
  | start hs => exact start _ hs
  | step _ hok hs ih => exact preserve _ _ _ ih hok hs

/-- An invariant may be proved on top of one that is already established. -/
theorem Reachable.invariant_of {Known : σ → Prop} (Inv : σ → Prop)
    (known : ∀ s, Reachable init step ok s → Known s) (start : ∀ s, init s → Inv s)
    (preserve : ∀ s a s', Known s → Known s' → Inv s → ok s a → step s a = some s' → Inv s')
    {s : σ} (h : Reachable init step ok s) : Inv s := by
  induction h with
  | start hs => exact start _ hs
  | step hr hok hs ih => exact preserve _ _ _ (known _ hr) (known _ (.step hr hok hs)) ih hok hs

/-- A run condition may be weakened where the states are known to be good. -/
theorem Reachable.mono_of {Known : σ → Prop} (known : ∀ s, Reachable init step ok s → Known s)
    (weaken : ∀ s a, Known s → ok s a → ok' s a)
    {s : σ} (h : Reachable init step ok s) : Reachable init step ok' s := by
  induction h with
  | start hs => exact .start hs
  | step hr hok hs ih => exact .step ih (weaken _ _ (known _ hr) hok) hs

theorem Reachable.mono (weaken : ∀ s a, ok s a → ok' s a) {s : σ}
    (h : Reachable init step ok s) : Reachable init step ok' s :=
  Reachable.mono_of (fun _ _ => True.intro) (fun s a _ => weaken s a) h

theorem Reachable.mono_init {init' : σ → Prop} (weaken : ∀ s, init s → init' s) {s : σ}
    (h : Reachable init step ok s) : Reachable init' step ok s := by
  induction h with
  | start hs => exact .start (weaken _ hs)
  | step _ hok hs ih => exact .step ih hok hs

/-- Every label of a list is enabled and meets `ok` where it is taken. -/
def Follows (step : σ → α → Option σ) (ok : σ → α → Prop) : σ → List α → σ → Prop
  | s, [], t => s = t
  | s, a :: as, t => ok s a ∧ ∃ s', step s a = some s' ∧ Follows step ok s' as t

theorem Reachable.follows {s t : σ} {as : List α} (h : Reachable init step ok s)
    (hf : Follows step ok s as t) : Reachable init step ok t := by
  induction as generalizing s with
  | nil => exact hf ▸ h
  | cons a as ih =>
    obtain ⟨hok, s', hs, hf⟩ := hf
    exact ih (h.step hok hs) hf

theorem follows_true_iff {s t : σ} {as : List α} :
    Follows step (fun _ _ => True) s as t ↔ run step s as = some t := by
  induction as generalizing s with
  | nil => simp [Follows, run]
  | cons a as ih =>
    simp only [Follows, run, true_and, Option.bind_eq_some_iff]
    exact exists_congr fun s' => and_congr_right fun _ => ih

section Guarded
variable [∀ s a, Decidable (ok s a)]

/-- A step that is refused where the condition on the run fails. -/
def guarded (step : σ → α → Option σ) (ok : σ → α → Prop) [∀ s a, Decidable (ok s a)] (s : σ)
    (a : α) : Option σ :=
  if ok s a then step s a else none

/-- Running the guarded steps decides whether a list of labels meets the condition. -/
theorem Reachable.run {s t : σ} {as : List α} (h : Reachable init step ok s)
    (hr : run (guarded step ok) s as = some t) : Reachable init step ok t := by
  induction as generalizing s with
  | nil => exact Option.some.inj hr ▸ h
  | cons a as ih =>
    obtain ⟨s', hs, hr⟩ := Option.bind_eq_some_iff.mp hr
    unfold guarded at hs
    split at hs
    · exact ih (h.step ‹_› hs) hr
    · cases hs

/-- A run that ends in a state with a decidable property reaches such a state. -/
theorem exists_reachable {s : σ} (hs : init s) {as : List α} {good : σ → Bool}
    (h : (System.run (guarded step ok) s as).any good = true) :
    ∃ t, Reachable init step ok t ∧ good t = true := by
  cases hr : System.run (guarded step ok) s as with
  | none =>
    rw [hr] at h
    cases h
  | some t =>
    rw [hr] at h
    exact ⟨t, Reachable.run (.start hs) hr, h⟩

end Guarded

/-! ### Runs that keep a property -/

/-- `t` is reached from `s`, and `P` holds in every state of the run. -/
inductive Through (step : σ → α → Option σ) (ok : σ → α → Prop) (P : σ → Prop) : σ → σ → Prop
  | start {s : σ} (here : P s) : Through step ok P s s
  | step {s t u : σ} {a : α} (run : Through step ok P s t) (allowed : ok t a)
      (hs : step t a = some u) (here : P u) : Through step ok P s u

section Through
variable {P : σ → Prop} {s t : σ}

theorem Through.last (h : Through step ok P s t) : P t := by
  cases h with
  | start here => exact here
  | step _ _ _ here => exact here

theorem Through.reachable (run : Through step ok P s t) (h : Reachable init step ok s) :
    Reachable init step ok t := by
  induction run with
  | start => exact h
  | step _ allowed hs _ ih => exact ih.step allowed hs

theorem Through.invariant (run : Through step ok P s t) (h : Reachable init step ok s)
    (Inv : σ → Prop) (inv : Inv s) (preserve : ∀ t a u, Reachable init step ok t → P t → P u →
      ok t a → step t a = some u → Inv t → Inv u) : Inv t := by
  induction run with
  | start => exact inv
  | step run allowed hs here ih =>
    exact preserve _ _ _ (run.reachable h) run.last here allowed hs ih

theorem Through.run [∀ s a, Decidable (ok s a)] {as : List α}
    (h : Through step ok (fun _ => True) s t) {u : σ}
    (hr : System.run (guarded step ok) t as = some u) : Through step ok (fun _ => True) s u := by
  induction as generalizing t with
  | nil => exact Option.some.inj hr ▸ h
  | cons a as ih =>
    obtain ⟨s', hs, hr⟩ := Option.bind_eq_some_iff.mp hr
    unfold guarded at hs
    split at hs
    · exact ih (h.step ‹_› hs trivial) hr
    · cases hs

/-- A step that is also refused where `P` fails after it. -/
def keeping (step : σ → α → Option σ) (P : σ → Prop) [DecidablePred P] (s : σ) (a : α) : Option σ :=
  (step s a).filter fun s' => decide (P s')

/-- Running the steps that keep `P` decides whether a list of labels leads through states with `P`. -/
theorem Through.run_keeping [∀ s a, Decidable (ok s a)] [DecidablePred P] {as : List α}
    (h : Through step ok P s t) {u : σ}
    (hr : System.run (keeping (guarded step ok) P) t as = some u) : Through step ok P s u := by
  induction as generalizing t with
  | nil => exact Option.some.inj hr ▸ h
  | cons a as ih =>
    obtain ⟨s', hs, hr⟩ := Option.bind_eq_some_iff.mp hr
    obtain ⟨hs, here⟩ := Option.filter_eq_some_iff.mp hs
    unfold guarded at hs
    split at hs
    · exact ih (h.step ‹_› hs (of_decide_eq_true here)) hr
    · cases hs

end Through

/-! ### The states of a run -/

/-- A run from `s` to `t` with the states it visits, the last first. -/
inductive Visits (step : σ → α → Option σ) (ok : σ → α → Prop) (s : σ) : List σ → σ → Prop
  | start : Visits step ok s [s] s
  | step {vs : List σ} {t u : σ} {a : α} (run : Visits step ok s vs t) (allowed : ok t a)
      (hs : step t a = some u) : Visits step ok s (u :: vs) u

theorem Visits.last_mem {vs : List σ} {s t : σ} (run : Visits step ok s vs t) : t ∈ vs := by
  cases run with
  | start => exact List.mem_cons_self
  | step => exact List.mem_cons_self

theorem Visits.run {vs : List σ} {s t u : σ} {as : List α} (visits : Visits step ok s vs t)
    (allowed : ∀ a ∈ as, ∀ s, ok s a) (hr : System.run step t as = some u) :
    ∃ vs, Visits step ok s vs u := by
  induction as generalizing vs t with
  | nil => exact ⟨vs, Option.some.inj hr ▸ visits⟩
  | cons a as ih =>
    obtain ⟨t', hs, hr⟩ := Option.bind_eq_some_iff.mp hr
    exact ih (visits.step (allowed a List.mem_cons_self t) hs)
      (fun b mem => allowed b (List.mem_cons_of_mem _ mem)) hr

/-! ### The events of a run -/

section Records
variable {ε : Type*} {event : α → σ → Option ε} {es : List ε} {s t : σ}

/-- A run from `s` to `t` with the events of its steps, the last first. -/
inductive Records (step : σ → α → Option σ) (ok : σ → α → Prop) (event : α → σ → Option ε) (s : σ) :
    List ε → σ → Prop
  | start : Records step ok event s [] s
  | step {es : List ε} {t u : σ} {a : α} (run : Records step ok event s es t) (allowed : ok t a)
      (hs : step t a = some u) : Records step ok event s ((event a u).toList ++ es) u

theorem Records.reachable (run : Records step ok event s es t) (h : Reachable init step ok s) :
    Reachable init step ok t := by
  induction run with
  | start => exact h
  | step _ allowed hs ih => exact ih.step allowed hs

theorem Reachable.records (h : Reachable init step ok s) (event : α → σ → Option ε) :
    ∃ s₀ es, init s₀ ∧ Records step ok event s₀ es s := by
  induction h with
  | start start => exact ⟨_, _, start, .start⟩
  | step _ allowed hs ih =>
    obtain ⟨s₀, es, start, run⟩ := ih
    exact ⟨s₀, _, start, run.step allowed hs⟩

/-- Follow a list of labels after the events `es`. -/
def record (step : σ → α → Option σ) (event : α → σ → Option ε) :
    List ε → σ → List α → Option (List ε × σ)
  | es, s, [] => some (es, s)
  | es, s, a :: as => (step s a).bind fun s' => record step event ((event a s').toList ++ es) s' as

theorem Records.record (run : Records step (fun _ _ => True) event s es t) {as : List α} {es' : List ε}
    {u : σ} (hr : System.record step event es t as = some (es', u)) :
    Records step (fun _ _ => True) event s es' u := by
  induction as generalizing es t with
  | nil =>
    cases hr
    exact run
  | cons a as ih =>
    obtain ⟨s', hs, hr⟩ := Option.bind_eq_some_iff.mp hr
    exact ih (run.step trivial hs) hr

theorem Records.of_record {as : List α} (hr : System.record step event [] s as = some (es, t)) :
    Records step (fun _ _ => True) event s es t :=
  Records.record .start hr

theorem Records.of_guarded [∀ s a, Decidable (ok s a)] {as : List α}
    (hr : System.record (guarded step ok) event [] s as = some (es, t)) :
    Records step ok event s es t := by
  have run := Records.of_record hr
  clear hr
  induction run with
  | start => exact .start
  | step _ _ hs ih =>
    unfold guarded at hs
    split at hs
    · exact .step ih ‹_› hs
    · cases hs

end Records

/-! ### Repeating one label -/

/-- `t` is reached from `s` by steps with label `a`. -/
def Repeats (step : σ → α → Option σ) (ok : σ → α → Prop) (a : α) : σ → σ → Prop :=
  Relation.ReflTransGen fun s t => ok s a ∧ step s a = some t

/-- Repeating label `a` from `s` gets to a state with `Q`. -/
def Leads (step : σ → α → Option σ) (ok : σ → α → Prop) (a : α) (s : σ) (Q : σ → Prop) : Prop :=
  ∃ t, Repeats step ok a s t ∧ Q t

variable {a : α} {s t : σ} {P Q : σ → Prop}

theorem Repeats.weaken (weaken : ∀ s, ok s a → ok' s a) (h : Repeats step ok a s t) :
    Repeats step ok' a s t :=
  Relation.ReflTransGen.mono (fun s _ h => ⟨weaken s h.1, h.2⟩) _ _ h

/-- A repetition has not begun, or its first step is known. -/
theorem Repeats.cases (h : Repeats step ok a s t) :
    s = t ∨ ∃ u, step s a = some u ∧ Repeats step ok a u t := by
  rcases Relation.ReflTransGen.cases_head h with rfl | ⟨u, ⟨-, hs⟩, rest⟩
  · exact .inl rfl
  · exact .inr ⟨u, hs, rest⟩

theorem Repeats.invariant (h : Repeats step ok a s t) (Inv : σ → Prop) (inv : Inv s)
    (preserve : ∀ s t, Inv s → ok s a → step s a = some t → Inv t) : Inv t := by
  induction h with
  | refl => exact inv
  | tail _ last ih => exact preserve _ _ ih last.1 last.2

theorem Reachable.repeats (h : Reachable init step ok s) (repeats : Repeats step ok a s t) :
    Reachable init step ok t := by
  induction repeats with
  | refl => exact h
  | tail _ last ih => exact ih.step last.1 last.2

theorem Leads.done (h : Q s) : Leads step ok a s Q := ⟨s, .refl, h⟩

theorem Leads.head (hok : ok s a) (hs : step s a = some t) (h : Leads step ok a t Q) :
    Leads step ok a s Q := by
  obtain ⟨u, rest, q⟩ := h
  exact ⟨u, .head ⟨hok, hs⟩ rest, q⟩

theorem Leads.trans (h : Leads step ok a s P) (next : ∀ t, P t → Leads step ok a t Q) :
    Leads step ok a s Q := by
  obtain ⟨t, first, p⟩ := h
  obtain ⟨u, second, q⟩ := next t p
  exact ⟨u, Relation.ReflTransGen.trans first second, q⟩

theorem Leads.mono (h : Leads step ok a s P) (weaken : ∀ t, P t → Q t) : Leads step ok a s Q :=
  h.trans fun t p => .done (weaken t p)

theorem Leads.weaken (weaken : ∀ s, ok s a → ok' s a) (h : Leads step ok a s Q) :
    Leads step ok' a s Q := by
  obtain ⟨t, repeats, q⟩ := h
  exact ⟨t, repeats.weaken weaken, q⟩

end ReadLogUpdate.System
