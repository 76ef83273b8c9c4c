import Mathlib.Data.Nat.Bitwise
import Mathlib.Tactic.Ring

/-! # Byte-addressed memory

Memory is a byte for every address. `load` and `store` treat some bytes in a row
as a number, least significant byte first; `fill` and `copy` are what `memset` and
`memcpy` do to disjoint ranges. All facts are about which bytes an access can
see. -/

namespace Sdkz.Base

abbrev Memory := Nat → UInt8

namespace Memory

/-- The number in the `n` bytes from `a` on. -/
def load (mem : Memory) : Nat → Nat → Nat
  | 0, _ => 0
  | n + 1, a => (mem a).toNat + 256 * mem.load n (a + 1)

/-- The `n` bytes from `a` on hold `v`. -/
def store (mem : Memory) (n a v : Nat) : Memory := fun b =>
  if a ≤ b ∧ b < a + n then (v / 256 ^ (b - a)).toUInt8 else mem b

def fill (mem : Memory) (a n : Nat) (c : UInt8) : Memory := fun b =>
  if a ≤ b ∧ b < a + n then c else mem b

def copy (mem : Memory) (dst src n : Nat) : Memory := fun b =>
  if dst ≤ b ∧ b < dst + n then mem (src + (b - dst)) else mem b

variable {mem mem' : Memory} {n m a b v : Nat}

/-- A load depends on the bytes it reads only. -/
theorem load_congr (h : ∀ b, a ≤ b → b < a + n → mem b = mem' b) :
    mem.load n a = mem'.load n a := by
  induction n generalizing a with
  | zero => rfl
  | succ n ih =>
    have hhead := h a (Nat.le_refl a) (by omega)
    have htail := ih (a := a + 1) fun b hb hlt => h b (by omega) (by omega)
    rw [load, load, hhead, htail]

theorem store_outside (hb : b < a ∨ a + n ≤ b) : mem.store n a v b = mem b := by
  rw [store, if_neg (by omega)]

theorem load_store_disjoint (h : a + n ≤ b ∨ b + m ≤ a) :
    (mem.store n a v).load m b = mem.load m b :=
  load_congr fun c hc hlt => store_outside (by omega)

/-- The bytes of a store behind its first one. -/
theorem load_store_tail :
    (mem.store (n + 1) a v).load n (a + 1) = (mem.store n (a + 1) (v / 256)).load n (a + 1) := by
  refine load_congr fun b hb hlt => ?_
  have hpow : 256 ^ (b - a) = 256 * 256 ^ (b - (a + 1)) := by
    rw [← pow_succ', show b - (a + 1) + 1 = b - a by omega]
  rw [store, store, if_pos (by omega), if_pos (by omega), hpow, Nat.div_div_eq_div_mul]

theorem load_store_self (hv : v < 256 ^ n) : (mem.store n a v).load n a = v := by
  induction n generalizing a v with
  | zero =>
    simp only [pow_zero, Nat.lt_one_iff] at hv
    rw [load, hv]
  | succ n ih =>
    have hhead : (mem.store (n + 1) a v a).toNat = v % 256 := by
      rw [store, if_pos (by omega), Nat.sub_self, pow_zero, Nat.div_one]
      simp
    have hdiv : v / 256 < 256 ^ n := by
      rw [pow_succ] at hv
      omega
    rw [load, hhead, load_store_tail, ih hdiv]
    omega

theorem fill_outside {c : UInt8} (hb : b < a ∨ a + n ≤ b) : mem.fill a n c b = mem b := by
  rw [fill, if_neg (by omega)]

theorem copy_outside {src : Nat} (hb : b < a ∨ a + n ≤ b) : mem.copy a src n b = mem b := by
  rw [copy, if_neg (by omega)]

end Memory

end Sdkz.Base
