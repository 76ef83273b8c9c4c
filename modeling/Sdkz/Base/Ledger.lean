import Mathlib.Data.List.Nodup
import Mathlib.Data.List.Perm.Basic

/-! # Accounts of what is acquired and released

A ledger lists what was acquired and what was released, the latest first. It accounts
for what is held if nothing was acquired twice, and what was acquired is either held or
was released once. -/

namespace Sdkz.Base

structure Ledger (ρ : Type*) where
  acquired : List ρ
  released : List ρ

namespace Ledger
variable {ρ : Type*} {l : Ledger ρ} {held held' : List ρ} {r : ρ}

def empty : Ledger ρ := ⟨[], []⟩

def acquire (l : Ledger ρ) (r : ρ) : Ledger ρ := { l with acquired := r :: l.acquired }

def release (l : Ledger ρ) (r : ρ) : Ledger ρ := { l with released := r :: l.released }

@[simp] theorem acquire_acquired : (l.acquire r).acquired = r :: l.acquired := rfl

@[simp] theorem acquire_released : (l.acquire r).released = l.released := rfl

@[simp] theorem release_acquired : (l.release r).acquired = l.acquired := rfl

@[simp] theorem release_released : (l.release r).released = r :: l.released := rfl

structure Accounts (l : Ledger ρ) (held : List ρ) : Prop where
  nodup : l.acquired.Nodup
  perm : l.acquired.Perm (l.released ++ held)

theorem empty_accounts : (empty : Ledger ρ).Accounts [] := ⟨List.nodup_nil, .nil⟩

theorem Accounts.of_perm (A : l.Accounts held) (h : held.Perm held') : l.Accounts held' :=
  ⟨A.nodup, A.perm.trans (h.append_left _)⟩

theorem Accounts.acquire (A : l.Accounts held) (hr : r ∉ l.acquired) :
    (l.acquire r).Accounts (r :: held) :=
  ⟨List.nodup_cons.mpr ⟨hr, A.nodup⟩, (A.perm.cons r).trans List.perm_middle.symm⟩

theorem Accounts.release (A : l.Accounts (r :: held)) : (l.release r).Accounts held :=
  ⟨A.nodup, A.perm.trans List.perm_middle⟩

theorem Accounts.mem_acquired (A : l.Accounts held) :
    r ∈ l.acquired ↔ r ∈ l.released ∨ r ∈ held := by
  rw [A.perm.mem_iff, List.mem_append]

theorem Accounts.separate (A : l.Accounts held) :
    l.released.Nodup ∧ held.Nodup ∧ l.released.Disjoint held :=
  List.nodup_append'.mp (A.perm.nodup_iff.mp A.nodup)

/-- What is held was not released. -/
theorem Accounts.not_released (A : l.Accounts held) (hr : r ∈ held) : r ∉ l.released :=
  fun h => A.separate.2.2 h hr

/-- What is no longer held was released once. -/
theorem Accounts.released_once [DecidableEq ρ] (A : l.Accounts held) (ha : r ∈ l.acquired)
    (hr : r ∉ held) : l.released.count r = 1 :=
  List.count_eq_one_of_mem A.separate.1 ((A.mem_acquired.mp ha).resolve_right hr)

end Ledger

end Sdkz.Base
