import Mathlib.Data.Set.Finite.Basic
import Mathlib.Logic.Function.Basic

/-!
# Atomic objects

An object on which each call takes effect at one point between its call and its return, and the
histories of calls and returns that it has. A call that changes nothing may choose that point
afterwards, among the values that the object had since the call: the histories are the same.
-/

namespace ReadLogUpdate.Atomic

variable {σ ι ρ : Type*}

inductive Event (ι ρ : Type*) where
  | call (t : Nat) (op : ι)
  | ret (t : Nat) (r : ρ)

/-- Where the call of a thread stands. -/
inductive Status (ι ρ : Type*) where
  | idle
  | waiting (op : ι)
  | answered (r : ρ)

/-- The history `es`, the last event first, leads to value `S` and the calls `p`. -/
inductive Moves (apply : σ → ι → ρ × σ) (S₀ : σ) : List (Event ι ρ) → σ → (Nat → Status ι ρ) → Prop
  | start : Moves apply S₀ [] S₀ fun _ => .idle
  | call {es : List (Event ι ρ)} {S : σ} {p : Nat → Status ι ρ} (before : Moves apply S₀ es S p) (t : Nat)
      (op : ι) (idle : p t = .idle) :
      Moves apply S₀ (.call t op :: es) S (Function.update p t (.waiting op))
  | effect {es : List (Event ι ρ)} {S : σ} {p : Nat → Status ι ρ} (before : Moves apply S₀ es S p) (t : Nat)
      (op : ι) (waiting : p t = .waiting op) :
      Moves apply S₀ es (apply S op).2 (Function.update p t (.answered (apply S op).1))
  | ret {es : List (Event ι ρ)} {S : σ} {p : Nat → Status ι ρ} (before : Moves apply S₀ es S p) (t : Nat)
      (r : ρ) (answered : p t = .answered r) :
      Moves apply S₀ (.ret t r :: es) S (Function.update p t .idle)

/-- Where a call stands that may choose its point afterwards. -/
inductive Progress (σ ι ρ : Type*) where
  | idle
  /-- the values of the object since the call -/
  | pending (op : ι) (seen : List σ)
  | committed (r : ρ)

def Progress.see (S : σ) : Progress σ ι ρ → Progress σ ι ρ
  | .pending op seen => .pending op (S :: seen)
  | g => g

/-- The call has answer `r`: it has taken effect, or could have without a change. -/
def Progress.Answers (apply : σ → ι → ρ × σ) (r : ρ) : Progress σ ι ρ → Prop
  | .idle => False
  | .pending op seen => ∃ S ∈ seen, apply S op = (r, S)
  | .committed r' => r' = r

/-- The history `es` of the object whose calls choose their points afterwards. -/
inductive Explained (apply : σ → ι → ρ × σ) (S₀ : σ) :
    List (Event ι ρ) → σ → (Nat → Progress σ ι ρ) → Prop
  | start : Explained apply S₀ [] S₀ fun _ => .idle
  | call {es : List (Event ι ρ)} {S : σ} {g : Nat → Progress σ ι ρ} (before : Explained apply S₀ es S g)
      (t : Nat) (op : ι) (idle : g t = .idle) :
      Explained apply S₀ (.call t op :: es) S (Function.update g t (.pending op [S]))
  | commit {es : List (Event ι ρ)} {S : σ} {g : Nat → Progress σ ι ρ} (before : Explained apply S₀ es S g)
      (t : Nat) (op : ι) (seen : List σ) (pending : g t = .pending op seen) :
      Explained apply S₀ es (apply S op).2
        (Function.update (fun u => (g u).see (apply S op).2) t (.committed (apply S op).1))
  | ret {es : List (Event ι ρ)} {S : σ} {g : Nat → Progress σ ι ρ} (before : Explained apply S₀ es S g)
      (t : Nat) (r : ρ) (answers : (g t).Answers apply r) :
      Explained apply S₀ (.ret t r :: es) S (Function.update g t .idle)

/-- A choice for the running calls of whether they have taken effect. -/
def Choice (apply : σ → ι → ρ × σ) : Progress σ ι ρ → Status ι ρ → Prop
  | .idle, p => p = .idle
  | .pending op seen, p => p = .waiting op ∨ ∃ r, p = .answered r ∧ ∃ S ∈ seen, apply S op = (r, S)
  | .committed r, p => p = .answered r

variable {apply : σ → ι → ρ × σ} {S₀ S : σ} {es : List (Event ι ρ)} {g : Nat → Progress σ ι ρ}

theorem Progress.Answers.choice {c : Progress σ ι ρ} {r : ρ} (h : c.Answers apply r) :
    Choice apply c (.answered r) := by
  cases c with
  | idle => exact h.elim
  | pending op seen => exact .inr ⟨r, rfl, h⟩
  | committed r' => exact congrArg Status.answered (Eq.symm h)

/-- A call that may choose its point afterwards need not have chosen it. -/
def Progress.status : Progress σ ι ρ → Status ι ρ
  | .idle => .idle
  | .pending op _ => .waiting op
  | .committed r => .answered r

theorem Progress.choice_status (c : Progress σ ι ρ) : Choice apply c c.status := by
  cases c with
  | idle | committed r => rfl
  | pending op seen => exact .inl rfl

theorem Explained.finite (h : Explained apply S₀ es S g) : {t | g t ≠ .idle}.Finite := by
  induction h with
  | start => exact Set.finite_empty.subset fun t ne => ne rfl
  | @call es S g _ t op _ ih =>
    refine (ih.insert t).subset fun u ne => ?_
    by_cases eq : u = t
    · exact .inl eq
    · exact .inr (by simpa [Function.update_of_ne eq] using ne)
  | @commit es S g _ t op seen _ ih =>
    refine (ih.insert t).subset fun u ne => ?_
    by_cases eq : u = t
    · exact .inl eq
    · refine .inr fun idle => ne ?_
      simp only [Function.update_of_ne eq, idle, Progress.see]
  | @ret es S g _ t r _ ih =>
    refine ih.subset fun u ne idle => ne ?_
    by_cases eq : u = t
    · rw [eq, Function.update_self]
    · rw [Function.update_of_ne eq, idle]

/-- Waiting calls without an effect may take it one after the other. -/
theorem Moves.effects {p p' : Nat → Status ι ρ} (h : Moves apply S₀ es S p) (F : Finset Nat)
    (inside : ∀ t ∈ F, p t = p' t ∨ ∃ op r, p t = .waiting op ∧ p' t = .answered r ∧ apply S op = (r, S))
    (outside : ∀ t, t ∉ F → p t = p' t) : Moves apply S₀ es S p' := by
  induction F using Finset.induction_on generalizing p with
  | empty =>
    obtain rfl : p = p' := funext fun t => outside t (Finset.notMem_empty t)
    exact h
  | @insert t F out ih =>
    have rest (q : Nat → Status ι ρ) (h : Moves apply S₀ es S q) (here : q t = p' t)
        (same : ∀ u, u ≠ t → q u = p u) : Moves apply S₀ es S p' := by
      refine ih h (fun u mem => ?_) fun u out' => ?_
      · rw [same u (by rintro rfl; exact out mem)]
        exact inside u (Finset.mem_insert_of_mem mem)
      · by_cases eq : u = t
        · rw [eq, here]
        · rw [same u eq]
          exact outside u (by simp [eq, out'])
    rcases inside t (Finset.mem_insert_self t F) with same | ⟨op, r, waits, answered, quiet⟩
    · exact rest p h same fun _ _ => rfl
    · have moved := h.effect t op waits
      rw [quiet] at moved
      refine rest _ moved ?_ fun u ne => Function.update_of_ne ne _ _
      rw [Function.update_self, answered]

theorem Explained.moves (h : Explained apply S₀ es S g) {p : Nat → Status ι ρ}
    (choice : ∀ t, Choice apply (g t) (p t)) : Moves apply S₀ es S p := by
  induction h generalizing p with
  | start =>
    obtain rfl : p = fun _ => .idle := funext choice
    exact .start
  | @call es S g before t op idle ih =>
    have earlier (u : Nat) : Choice apply (g u) (Function.update p t .idle u) := by
      by_cases eq : u = t
      · rw [eq, Function.update_self, idle]
        rfl
      · rw [Function.update_of_ne eq]
        have here := choice u
        rwa [Function.update_of_ne eq] at here
    have moved := (ih earlier).call t op (Function.update_self _ _ _)
    rw [Function.update_idem] at moved
    have here := choice t
    rw [Function.update_self] at here
    refine moved.effects {t} (fun u mem => ?_) fun u out => ?_
    · obtain rfl := Finset.mem_singleton.mp mem
      rw [Function.update_self]
      rcases here with waits | ⟨r, answered, S', mem', quiet⟩
      · exact .inl waits.symm
      · obtain rfl := List.mem_singleton.mp mem'
        exact .inr ⟨op, r, rfl, answered, quiet⟩
    · rw [Function.update_of_ne (by simpa using out)]
  | @commit es S g before t op seen pending ih =>
    have others {u : Nat} (ne : u ≠ t) : Choice apply ((g u).see (apply S op).2) (p u) := by
      have here := choice u
      rwa [Function.update_of_ne ne] at here
    have mine : p t = .answered (apply S op).1 := by
      have here := choice t
      rwa [Function.update_self] at here
    -- a call that chooses the value after this effect waits until then
    have each (u : Nat) : ∃ c, Choice apply (g u) c ∧ (u = t → c = .waiting op) ∧
        (u ≠ t → c = p u ∨ ∃ op' r, c = .waiting op' ∧ p u = .answered r ∧
          apply (apply S op).2 op' = (r, (apply S op).2)) := by
      by_cases eq : u = t
      · rw [eq, pending]
        exact ⟨.waiting op, .inl rfl, fun _ => rfl, fun ne => absurd rfl ne⟩
      · have here := others eq
        cases hg : g u with
        | idle | committed r' =>
          rw [hg] at here
          exact ⟨p u, here, fun e => absurd e eq, fun _ => .inl rfl⟩
        | pending op' seen' =>
          rw [hg] at here
          rcases here with waits | ⟨r, answered, S', mem, quiet⟩
          · exact ⟨p u, .inl waits, fun e => absurd e eq, fun _ => .inl rfl⟩
          · rcases List.mem_cons.mp mem with rfl | mem
            · exact ⟨.waiting op', .inl rfl, fun e => absurd e eq,
                fun _ => .inr ⟨op', r, rfl, answered, quiet⟩⟩
            · exact ⟨p u, .inr ⟨r, answered, S', mem, quiet⟩, fun e => absurd e eq, fun _ => .inl rfl⟩
    choose q earlier waits keeps using each
    refine ((ih earlier).effect t op (waits t rfl)).effects before.finite.toFinset (fun u _ => ?_)
      fun u out => ?_
    · by_cases eq : u = t
      · rw [eq, Function.update_self, mine]
        exact .inl rfl
      · rw [Function.update_of_ne eq]
        exact keeps u eq
    · have idle : g u = .idle := by simpa using out
      have eq : u ≠ t := by
        rintro rfl
        rw [pending] at idle
        cases idle
      have chosen := earlier u
      have here := others eq
      rw [idle] at chosen here
      rw [Function.update_of_ne eq]
      exact (show q u = .idle from chosen).trans (show p u = .idle from here).symm
  | @ret es S g before t r answers ih =>
    have idle := choice t
    rw [Function.update_self] at idle
    have earlier (u : Nat) : Choice apply (g u) (Function.update p t (.answered r) u) := by
      by_cases eq : u = t
      · rw [eq, Function.update_self]
        exact answers.choice
      · rw [Function.update_of_ne eq]
        have here := choice u
        rwa [Function.update_of_ne eq] at here
    have moved := (ih earlier).ret t r (Function.update_self _ _ _)
    rw [Function.update_idem] at moved
    rwa [show Function.update p t .idle = p from by
      rw [← show p t = .idle from idle, Function.update_eq_self]] at moved

end ReadLogUpdate.Atomic
