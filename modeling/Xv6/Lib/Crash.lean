import Mathlib

/-!
# Crashes of a program of atomic steps

A program updates a store one atomic step at a time, and each step is a
function of the store as the earlier steps left it, so a step may copy what an
earlier one wrote. A crash keeps a prefix of the steps: the crash points of a
program `p` from `s` are the stores `run s (p.take k)`.

`run_take_append` splits a crash point of two programs run in sequence: a
crash point of the first, or the whole first program followed by a crash point
of the second. `run_range_induction` is the invariant rule for a loop over
`0, …, n - 1`, with the invariant indexed by the iterations done, and
`take_map_range` says that a crash inside such a loop stops it after some
iterations.
-/

namespace Crash

variable {σ : Type}

/-- Run the steps in order. -/
def run (s : σ) : List (σ → σ) → σ
  | [] => s
  | f :: fs => run (f s) fs

@[simp] theorem run_nil (s : σ) : run s [] = s := rfl

@[simp] theorem run_cons (s : σ) (f : σ → σ) (fs : List (σ → σ)) :
    run s (f :: fs) = run (f s) fs := rfl

theorem run_append (s : σ) (p q : List (σ → σ)) : run s (p ++ q) = run (run s p) q := by
  induction p generalizing s with
  | nil => rfl
  | cons f p ih => exact ih (f s)

theorem run_take_append (s : σ) (p q : List (σ → σ)) (k : Nat) :
    run s ((p ++ q).take k) = run (run s (p.take k)) (q.take (k - p.length)) := by
  rw [List.take_append, run_append]

/-- A crash within the first program leaves the second one unstarted. -/
theorem run_take_append_of_le {s : σ} {p q : List (σ → σ)} {k : Nat} (hk : k ≤ p.length) :
    run s ((p ++ q).take k) = run s (p.take k) := by
  rw [List.take_append_of_le_length hk]

/-- A crash after the first program has run it whole. -/
theorem run_take_append_of_ge {s : σ} {p q : List (σ → σ)} {k : Nat} (hk : p.length ≤ k) :
    run s ((p ++ q).take k) = run (run s p) (q.take (k - p.length)) := by
  rw [run_take_append, List.take_of_length_le hk]

/-- The crash points of two programs in sequence: those of the first, and
after the whole first program, which ends in `S`, those of the second from any
store in `S`. -/
theorem crash_append {R S : σ → Prop} {s : σ} {p q : List (σ → σ)}
    (hp : ∀ k, R (run s (p.take k))) (hend : S (run s p))
    (hq : ∀ s', S s' → ∀ k, R (run s' (q.take k))) (k : Nat) :
    R (run s ((p ++ q).take k)) := by
  by_cases hk : k ≤ p.length
  · rw [run_take_append_of_le hk]
    exact hp k
  · rw [run_take_append_of_ge (by omega)]
    exact hq _ hend _

/-- A crash at a single step: before it or after it. -/
theorem run_take_singleton (s : σ) (f : σ → σ) (k : Nat) :
    run s ([f].take k) = s ∨ run s ([f].take k) = f s := by
  cases k with
  | zero => exact .inl rfl
  | succ k => exact .inr (by simp)

/-- One more iteration of a loop over `0, …, j`. -/
theorem run_range_succ (f : Nat → σ → σ) (s : σ) (j : Nat) :
    run s ((List.range (j + 1)).map f) = f j (run s ((List.range j).map f)) := by
  rw [List.range_succ, List.map_append, run_append]
  rfl

/-- The invariant rule for a loop: a property of the store after `j`
iterations that the `j`-th iteration carries to `j + 1`. -/
theorem run_range_induction {n : Nat} (f : Nat → σ → σ) (P : Nat → σ → Prop) {s : σ}
    (h0 : P 0 s) (hstep : ∀ j < n, ∀ s, P j s → P (j + 1) (f j s)) :
    ∀ j ≤ n, P j (run s ((List.range j).map f)) := by
  intro j hj
  induction j with
  | zero => exact h0
  | succ j ih =>
    rw [run_range_succ]
    exact hstep j (by omega) _ (ih (by omega))

/-- A crash inside a loop over `0, …, n - 1` stops it after some iterations. -/
theorem take_map_range {α : Type} (f : Nat → α) (k n : Nat) :
    ((List.range n).map f).take k = (List.range (min k n)).map f := by
  rw [← List.map_take, List.take_range]

end Crash
