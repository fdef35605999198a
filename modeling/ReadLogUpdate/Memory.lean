import Mathlib.Logic.Function.Basic
import Mathlib.Algebra.Order.Ring.Nat
import Mathlib.Tactic.Common

/-!
Byte-addressed memory with little-endian 64-bit words and block copies. A word or a block is
unchanged by writes to addresses outside it.
-/

namespace ReadLogUpdate.Memory

/-- A byte for every address. -/
abbrev Mem := Nat → UInt8

/-- The number stored in `n` bytes from `a`, least significant byte first. -/
def loadBytes (m : Mem) (a : Nat) : Nat → Nat
  | 0 => 0
  | n + 1 => (m a).toNat + 256 * loadBytes m (a + 1) n

def loadWord (m : Mem) (a : Nat) : Nat := loadBytes m a 8

def storeWord (m : Mem) (a v : Nat) : Mem := fun x =>
  if a ≤ x ∧ x < a + 8 then UInt8.ofNat (v / 256 ^ (x - a)) else m x

/-- `memcpy` between regions that do not overlap. -/
def memcpy (m : Mem) (dst src n : Nat) : Mem := fun x =>
  if dst ≤ x ∧ x < dst + n then m (src + (x - dst)) else m x

variable {m m' : Mem} {a b v x n src dst : Nat}

theorem loadBytes_congr (same : ∀ x, a ≤ x → x < a + n → m' x = m x) :
    loadBytes m' a n = loadBytes m a n := by
  induction n generalizing a with
  | zero => rfl
  | succ n ih =>
    rw [loadBytes, loadBytes, same a (Nat.le_refl _) (by omega),
      ih fun x ge lt => same x (by omega) (by omega)]

theorem loadWord_congr (same : ∀ x, a ≤ x → x < a + 8 → m' x = m x) : loadWord m' a = loadWord m a :=
  loadBytes_congr same

/-- Bytes that spell `v` load as `v`, as far as it fits. -/
theorem loadBytes_of_digits (digits : ∀ i, i < n → m (a + i) = UInt8.ofNat (v / 256 ^ i)) :
    loadBytes m a n = v % 256 ^ n := by
  induction n generalizing a v with
  | zero => rw [Nat.pow_zero, Nat.mod_one, loadBytes]
  | succ n ih =>
    have first := digits 0 (Nat.zero_lt_succ _)
    rw [Nat.add_zero, Nat.pow_zero, Nat.div_one] at first
    have rest : loadBytes m (a + 1) n = v / 256 % 256 ^ n := ih fun i lt => by
      have := digits (i + 1) (by omega)
      rw [Nat.pow_succ', ← Nat.div_div_eq_div_mul] at this
      rw [← this]
      congr 1
      omega
    have byte : (UInt8.ofNat v).toNat = v % 256 := UInt8.toNat_ofNat'
    rw [loadBytes, first, rest, byte, Nat.pow_succ']
    exact Nat.mod_mul.symm

theorem storeWord_outside (outside : x < a ∨ a + 8 ≤ x) : storeWord m a v x = m x := by
  unfold storeWord
  rw [if_neg (by omega)]

theorem loadWord_storeWord (lt : v < 2 ^ 64) : loadWord (storeWord m a v) a = v := by
  have digits : loadWord (storeWord m a v) a = v % 256 ^ 8 := loadBytes_of_digits fun i lt => by
    unfold storeWord
    rw [if_pos (by omega), Nat.add_sub_cancel_left]
  rw [digits]
  exact Nat.mod_eq_of_lt (Nat.lt_of_lt_of_eq lt (by decide))

theorem loadWord_storeWord_of_disjoint (disjoint : b + 8 ≤ a ∨ a + 8 ≤ b) :
    loadWord (storeWord m a v) b = loadWord m b :=
  loadWord_congr fun _ _ _ => storeWord_outside (by omega)

theorem memcpy_inside (ge : dst ≤ x) (lt : x < dst + n) :
    memcpy m dst src n x = m (src + (x - dst)) := by
  unfold memcpy
  rw [if_pos ⟨ge, lt⟩]

theorem memcpy_outside (outside : x < dst ∨ dst + n ≤ x) : memcpy m dst src n x = m x := by
  unfold memcpy
  rw [if_neg (by omega)]

end ReadLogUpdate.Memory
