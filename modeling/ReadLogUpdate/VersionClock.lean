import Mathlib.Data.Finset.Card
import Mathlib.Data.Finset.Range
import Mathlib.Data.Finset.Insert
import Mathlib.Logic.Function.Basic

/-!
Version clocks. Writers draw versions from one counter and later report them done on another;
the two counters are read separately. A snapshot `l` counts exactly when the done counter and
the versions up to `l` still in flight add up to `l`; this survives every draw, and every
report of a version up to `l`.
-/

namespace ReadLogUpdate.VersionClock

variable {τ : Type*}

/-- `begun` versions drawn, `done` of them reported, the rest in flight. -/
structure Clock (τ : Type*) where
  begun : Nat
  done : Nat
  flight : τ → Option Nat

namespace Clock

/-- The writers in `ts` with a version up to `l` in flight. -/
def upTo (c : Clock τ) (ts : Finset τ) (l : Nat) : Finset τ :=
  ts.filter fun t => ∃ v ∈ c.flight t, v ≤ l

/-- `l` counts the versions done and those up to `l` still in flight. -/
def Counts (c : Clock τ) (ts : Finset τ) (l : Nat) : Prop :=
  c.done + (c.upTo ts l).card = l

structure Ok (c : Clock τ) (ts : Finset τ) : Prop where
  flight_le : ∀ t v, c.flight t = some v → v ≤ c.begun
  counts : c.Counts ts c.begun

variable {c : Clock τ} {ts : Finset τ} {t : τ} {l v : Nat}

theorem mem_upTo : t ∈ c.upTo ts l ↔ t ∈ ts ∧ ∃ v, c.flight t = some v ∧ v ≤ l := by
  simp [upTo]

/-- A snapshot that equals the done counter has no version up to it in flight. -/
theorem Counts.lt_of_done (h : c.Counts ts l) (eq : c.done = l) (mem : t ∈ ts)
    (flight : c.flight t = some v) : l < v := by
  by_contra le
  have mem' : t ∈ c.upTo ts l := mem_upTo.mpr ⟨mem, v, flight, Nat.le_of_not_lt le⟩
  have pos := Finset.card_pos.mpr ⟨t, mem'⟩
  unfold Counts at h
  omega

theorem Counts.congr {c' : Clock τ} (h : c.Counts ts l) (done : c'.done = c.done)
    (flight : ∀ t ∈ ts, ∀ v, v ≤ l → (c'.flight t = some v ↔ c.flight t = some v)) :
    c'.Counts ts l := by
  have same : c'.upTo ts l = c.upTo ts l := by
    ext t
    simp only [mem_upTo]
    refine and_congr_right fun mem => exists_congr fun v => ?_
    constructor
    · rintro ⟨e, le⟩
      exact ⟨(flight t mem v le).mp e, le⟩
    · rintro ⟨e, le⟩
      exact ⟨(flight t mem v le).mpr e, le⟩
  unfold Counts
  rw [done, same]
  exact h

theorem Counts.widen [DecidableEq τ] (h : c.Counts ts l) (idle : c.flight t = none) :
    c.Counts (insert t ts) l := by
  have same : c.upTo (insert t ts) l = c.upTo ts l := by
    ext u
    simp only [mem_upTo, Finset.mem_insert]
    constructor
    · rintro ⟨rfl | mem, v, e, le⟩
      · rw [idle] at e
        cases e
      · exact ⟨mem, v, e, le⟩
    · rintro ⟨mem, v, e, le⟩
      exact ⟨.inr mem, v, e, le⟩
  unfold Counts
  rw [same]
  exact h

section Step
variable [DecidableEq τ]

/-- Draw the next version. -/
def draw (c : Clock τ) (t : τ) : Clock τ :=
  ⟨c.begun + 1, c.done, Function.update c.flight t (some (c.begun + 1))⟩

/-- Report a version done. -/
def report (c : Clock τ) (t : τ) : Clock τ :=
  ⟨c.begun, c.done + 1, Function.update c.flight t none⟩

theorem Counts.draw (h : c.Counts ts l) (idle : c.flight t = none) (le : l ≤ c.begun) :
    (c.draw t).Counts ts l := by
  refine h.congr rfl fun u _ v le' => ?_
  by_cases e : u = t
  · subst e
    rw [idle]
    simp only [Clock.draw, Function.update_self, Option.some.injEq, reduceCtorEq, iff_false]
    omega
  · simp only [Clock.draw, Function.update_of_ne e]

theorem Counts.report (h : c.Counts ts l) (mem : t ∈ ts) (flight : c.flight t = some v)
    (le : v ≤ l) : (c.report t).Counts ts l := by
  have erased : (c.report t).upTo ts l = (c.upTo ts l).erase t := by
    ext u
    simp only [mem_upTo, Finset.mem_erase, Clock.report]
    by_cases e : u = t
    · subst e
      simp
    · simp only [Function.update_of_ne e, ne_eq, e, not_false_eq_true, true_and]
  have mem' : t ∈ c.upTo ts l := mem_upTo.mpr ⟨mem, v, flight, le⟩
  have card := Finset.card_erase_add_one mem'
  unfold Counts at h ⊢
  rw [erased]
  simp only [Clock.report]
  omega

theorem Ok.draw (h : c.Ok ts) (mem : t ∈ ts) (idle : c.flight t = none) : (c.draw t).Ok ts := by
  refine ⟨fun u v e => ?_, ?_⟩
  · by_cases eq : u = t
    · subst eq
      simp only [Clock.draw, Function.update_self, Option.some.injEq] at e
      exact Nat.le_of_eq e.symm
    · simp only [Clock.draw, Function.update_of_ne eq] at e
      exact Nat.le_succ_of_le (h.flight_le u v e)
  · have grown : (c.draw t).upTo ts (c.begun + 1) = insert t (c.upTo ts c.begun) := by
      ext u
      simp only [mem_upTo, Finset.mem_insert, Clock.draw]
      by_cases e : u = t
      · subst e
        simp [mem]
      · simp only [Function.update_of_ne e, e, false_or]
        refine and_congr_right fun _ => exists_congr fun v => and_congr_right fun e' => ?_
        have := h.flight_le u v e'
        omega
    have fresh : t ∉ c.upTo ts c.begun := fun mem' => by
      obtain ⟨-, v, e, -⟩ := mem_upTo.mp mem'
      rw [idle] at e
      cases e
    have counts := h.counts
    unfold Counts at counts ⊢
    show c.done + ((c.draw t).upTo ts (c.begun + 1)).card = c.begun + 1
    rw [grown, Finset.card_insert_of_notMem fresh]
    omega

theorem Ok.report (h : c.Ok ts) (mem : t ∈ ts) (flight : c.flight t = some v) :
    (c.report t).Ok ts := by
  refine ⟨fun u w e => ?_, h.counts.report mem flight (h.flight_le t v flight)⟩
  by_cases eq : u = t
  · subst eq
    simp [Clock.report] at e
  · simp only [Clock.report, Function.update_of_ne eq] at e
    exact h.flight_le u w e

theorem Ok.widen (h : c.Ok ts) (idle : c.flight t = none) : c.Ok (insert t ts) :=
  ⟨h.flight_le, h.counts.widen idle⟩

end Step

end Clock

end ReadLogUpdate.VersionClock
