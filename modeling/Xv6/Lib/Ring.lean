import Mathlib

/-!
# Ring buffers over free-running counters

A buffer of `K` slots indexed by `uint` counters that are never reduced: the entry of counter
`x` sits in slot `x % K`, and the counters wrap at `2 ^ 32`. When `K` divides `2 ^ 32` the wrap
moves no entry to another slot, so the entries of the `n` counters from `a` on form a list,
`view buf a n`, and the code's increments, decrements and stores act on it as list operations:

* `view_add`, `view_cons`: a view splits where a counter `b` with `b - a = m` stands;
* `view_update_end`: a store at the counter just past a view appends to it;
* `view_update_of_le`: a store at most `K - 1` counters on leaves the view alone;
* `view_pred`: one counter less drops the last entry.

The differences of counters (`b - a` in `uint`) are read as naturals by the lemmas of the
first section.
-/

namespace Ring

/-! ## Differences of counters -/

section Counters

variable {a b c : UInt32}

theorem sub_toNat_eq_zero : (b - a).toNat = 0 ↔ b = a := by
  rw [← UInt32.toNat_inj, UInt32.toNat_sub]
  have := a.toNat_lt
  have := b.toNat_lt
  omega

/-- Differences add up while they do not wrap. -/
theorem sub_toNat_add (h : (b - a).toNat + (c - b).toNat < 2 ^ 32) :
    (c - a).toNat = (b - a).toNat + (c - b).toNat := by
  simp only [UInt32.toNat_sub] at *
  have := a.toNat_lt
  have := b.toNat_lt
  have := c.toNat_lt
  omega

theorem add_one_sub_toNat (h : (b - a).toNat + 1 < 2 ^ 32) : (b + 1 - a).toNat = (b - a).toNat + 1 := by
  simp only [UInt32.toNat_sub, UInt32.toNat_add, UInt32.toNat_one] at *
  have := a.toNat_lt
  have := b.toNat_lt
  omega

theorem sub_one_sub_toNat (h : b ≠ a) : (b - 1 - a).toNat = (b - a).toNat - 1 := by
  have h' : b.toNat ≠ a.toNat := fun he => h (UInt32.toNat_inj.mp he)
  simp only [UInt32.toNat_sub, UInt32.toNat_one]
  have := a.toNat_lt
  have := b.toNat_lt
  omega

theorem sub_add_one_toNat (h : a ≠ b) : (b - (a + 1)).toNat = (b - a).toNat - 1 := by
  have h' : a.toNat ≠ b.toNat := fun he => h (UInt32.toNat_inj.mp he)
  simp only [UInt32.toNat_sub, UInt32.toNat_add, UInt32.toNat_one]
  have := a.toNat_lt
  have := b.toNat_lt
  omega

/-- `b == a + m` in `uint` for a difference `m` that fits. -/
theorem eq_add_iff_sub_toNat {m : Nat} (hm : m < 2 ^ 32) : b = a + m.toUInt32 ↔ (b - a).toNat = m := by
  rw [← UInt32.toNat_inj, UInt32.toNat_sub, UInt32.toNat_add, UInt32.toNat_ofNat']
  have := a.toNat_lt
  have := b.toNat_lt
  omega

end Counters

/-! ## Slots and views -/

variable {α : Type*} {K : Nat} [NeZero K]

/-- Slot `x % K` of a buffer of `K` entries. -/
def slot (K : Nat) [NeZero K] (x : Nat) : Fin K := ⟨x % K, Nat.mod_lt _ (Nat.pos_of_neZero K)⟩

theorem slot_eq_iff {x y : Nat} : slot K x = slot K y ↔ x % K = y % K := Fin.ext_iff

/-- Counters equal modulo `2 ^ 32` index the same slot. -/
theorem slot_of_sub (hK : K ∣ 2 ^ 32) {a b : UInt32} {m : Nat} (h : (b - a).toNat = m) :
    slot K b.toNat = slot K (a.toNat + m) := by
  rw [slot_eq_iff]
  have hmod : b.toNat % 2 ^ 32 = (a.toNat + m) % 2 ^ 32 := by
    rw [← h, UInt32.toNat_sub]
    have := a.toNat_lt
    have := b.toNat_lt
    omega
  rw [← Nat.mod_mod_of_dvd b.toNat hK, hmod, Nat.mod_mod_of_dvd _ hK]

/-- Counters less than `K` apart index different slots. -/
theorem slot_ne {x i j : Nat} (hij : i < j) (hj : j < K) : slot K (x + i) ≠ slot K (x + j) := by
  rw [Ne, slot_eq_iff]
  intro h
  have hji : i % K = j % K := Nat.ModEq.add_left_cancel' x h
  rw [Nat.mod_eq_of_lt (hij.trans hj), Nat.mod_eq_of_lt hj] at hji
  omega

/-- The entries of the `n` counters from `a` on. -/
def view (buf : Fin K → α) (a : UInt32) (n : Nat) : List α :=
  (List.range n).map fun j => buf (slot K (a.toNat + j))

variable {buf : Fin K → α} {a b : UInt32} {m n : Nat}

@[simp] theorem length_view : (view buf a n).length = n := by simp [view]

@[simp] theorem view_zero : view buf a 0 = [] := rfl

theorem view_succ : view buf a (n + 1) = view buf a n ++ [buf (slot K (a.toNat + n))] := by
  simp [view, List.range_succ]

/-- A view splits at a counter `b` that stands `m` entries on; the entries past `b` are read from
`b` itself, across the wrap of the counters. -/
theorem view_add (hK : K ∣ 2 ^ 32) (h : (b - a).toNat = m) : view buf a (m + n) = view buf a m ++ view buf b n := by
  simp only [view, List.range_add, List.map_append, List.map_map]
  congr 1
  apply List.map_congr_left
  intro j _
  have hslot : slot K (b.toNat + j) = slot K (a.toNat + (m + j)) := by
    rw [slot_eq_iff, Nat.add_mod, (slot_eq_iff.mp (slot_of_sub hK h)), ← Nat.add_mod]
    congr 1
    omega
  simp only [Function.comp, hslot]

theorem view_cons (hK : K ∣ 2 ^ 32) : view buf a (n + 1) = buf (slot K a.toNat) :: view buf (a + 1) n := by
  have h : (a + 1 - a).toNat = 1 := by
    simp only [UInt32.toNat_sub, UInt32.toNat_add, UInt32.toNat_one]
    have := a.toNat_lt
    omega
  rw [Nat.add_comm, view_add hK h]
  simp [view]

/-- A store at most `K - 1` counters past the start misses the entries before it. -/
theorem view_update_of_le (hn : n ≤ m) (hm : m < K) (x : α) :
    view (Function.update buf (slot K (a.toNat + m)) x) a n = view buf a n := by
  apply List.map_congr_left
  intro j hj
  have hj : j < m := lt_of_lt_of_le (List.mem_range.mp hj) hn
  rw [Function.update_of_ne (slot_ne hj hm)]

/-- A store just past a view shorter than the buffer appends to it. -/
theorem view_update_end (hn : n < K) (x : α) :
    view (Function.update buf (slot K (a.toNat + n)) x) a (n + 1) = view buf a n ++ [x] := by
  rw [view_succ, view_update_of_le le_rfl hn, Function.update_self]

theorem view_pred : view buf a (n - 1) = (view buf a n).dropLast := by
  cases n with
  | zero => rfl
  | succ n => rw [view_succ, List.dropLast_concat, Nat.add_sub_cancel]

end Ring
