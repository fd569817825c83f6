import Xv6.Vm.Tree

/-!
# Copying between the kernel and user space

`copyout`, `copyin` and `copyinstr` cut a user range into pieces that stay
within one page, find each page's frame with `walkaddr`, and copy the piece
there; a page for which `walkaddr` gives `0` stops the copy with `-1`. The
kernel's side of the copy is a list of bytes: the source of `copyout`, and what
`copyin` and `copyinstr` write to their destination.

`userAddr` is where `walkaddr` puts a user address: the frame of its page plus
its offset, when `walkaddr` finds one. It reads only the tables, so a copy
never changes it.

* `copyoutLoop_eq_bytes`, `copyinLoop_eq_bytes`, `copyinstrLoop_eq_bytes`:
  each page loop does what copying byte by byte does, stopping at the first
  byte without a user address (`copyoutBytes`, `copyinBytes`,
  `copyinstrBytes`): a page either has a frame for all of its bytes or for
  none of them;
* the byte loops then give the contracts: which calls return `0`, which bytes
  land where, and that nothing else changes.

`walkaddr` gives `0` for a page mapped to frame `0` as for a missing one, and
two pages mapped to one frame make two bytes of the range land in one place:
the contracts hold for frames that are not `0` and addresses that are distinct.
-/

namespace Xv6

namespace Mem

/-- One byte of a data page written. -/
def setByte (m : Mem) (p : Nat) (c : UInt8) : Mem := { m with bytes := Function.update m.bytes p c }

/-- `memmove(p, src, len)` from the kernel bytes `src`. -/
def writeBytes (m : Mem) (p : Nat) : List UInt8 → Mem
  | [] => m
  | c :: cs => (m.setByte p c).writeBytes (p + 1) cs

/-- The `n` bytes from physical address `p`. -/
def readBytes (m : Mem) (p n : Nat) : List UInt8 := (List.range n).map fun k => m.bytes (p + k)

@[simp] theorem setByte_tbl (m : Mem) (p : Nat) (c : UInt8) : (m.setByte p c).tbl = m.tbl := rfl
@[simp] theorem setByte_free (m : Mem) (p : Nat) (c : UInt8) : (m.setByte p c).free = m.free := rfl

@[simp] theorem writeBytes_tbl (m : Mem) (p : Nat) (cs : List UInt8) : (m.writeBytes p cs).tbl = m.tbl := by
  induction cs generalizing m p with
  | nil => rfl
  | cons c cs ih => simp [writeBytes, ih]

@[simp] theorem writeBytes_free (m : Mem) (p : Nat) (cs : List UInt8) :
    (m.writeBytes p cs).free = m.free := by
  induction cs generalizing m p with
  | nil => rfl
  | cons c cs ih => simp [writeBytes, ih]

end Mem

/-- Where `walkaddr` puts user address `va`: the frame of its page plus the
offset, or `none` when `walkaddr` gives `0`. -/
def userAddr (m : Mem) (pagetable va : Nat) : Option Nat :=
  let pa0 := walkaddr m pagetable (PGROUNDDOWN va)
  if pa0 = 0 then none else some (pa0 + (va - PGROUNDDOWN va))

/-! ## The code's loops -/

/-- `copyout`'s loop, with `fuel` rounds: the bytes `src` still to copy to
`dstva`. -/
def copyoutLoop (pagetable : Nat) : Nat → Mem → Nat → List UInt8 → Int × Mem
  | 0, m, _, _ => (0, m)
  | fuel + 1, m, dstva, src =>
    if src.length > 0 then
      let va0 := PGROUNDDOWN dstva
      let pa0 := walkaddr m pagetable va0
      if pa0 = 0 then (-1, m)
      else
        let n := min (PGSIZE - (dstva - va0)) src.length
        copyoutLoop pagetable fuel (m.writeBytes (pa0 + (dstva - va0)) (src.take n))
          ((va0 + PGSIZE) % 2 ^ 64) (src.drop n)
    else (0, m)

/-- `copyout(pagetable, dstva, src, len)`: each round copies at least one
byte, so `len` rounds are enough. -/
def copyout (m : Mem) (pagetable dstva : Nat) (src : List UInt8) : Int × Mem :=
  copyoutLoop pagetable src.length m dstva src

/-- `copyin`'s loop, with `fuel` rounds: the result and the bytes written to
the destination, in order. -/
def copyinLoop (m : Mem) (pagetable : Nat) : Nat → Nat → Nat → Int × List UInt8
  | 0, _, _ => (0, [])
  | fuel + 1, srcva, len =>
    if len > 0 then
      let va0 := PGROUNDDOWN srcva
      let pa0 := walkaddr m pagetable va0
      if pa0 = 0 then (-1, [])
      else
        let n := min (PGSIZE - (srcva - va0)) len
        let r := copyinLoop m pagetable fuel ((va0 + PGSIZE) % 2 ^ 64) (len - n)
        (r.1, m.readBytes (pa0 + (srcva - va0)) n ++ r.2)
    else (0, [])

/-- `copyin(pagetable, dst, srcva, len)`. -/
def copyin (m : Mem) (pagetable srcva len : Nat) : Int × List UInt8 :=
  copyinLoop m pagetable len srcva len

/-- The inner loop of `copyinstr` over `n` bytes from physical address `p`:
the bytes written to `dst`, whether the NUL was met, and `max` after it. -/
def copyinstrPage (m : Mem) : Nat → Nat → Nat → List UInt8 × Bool × Nat
  | 0, _, max => ([], false, max)
  | n + 1, p, max =>
    if m.bytes p = 0 then ([0], true, max)
    else
      let r := copyinstrPage m n (p + 1) (max - 1)
      (m.bytes p :: r.1, r.2)

/-- `copyinstr`'s outer loop, with `fuel` rounds: the result and the bytes
written to `dst`. -/
def copyinstrLoop (m : Mem) (pagetable : Nat) : Nat → Nat → Nat → Int × List UInt8
  | 0, _, _ => (-1, [])
  | fuel + 1, srcva, max =>
    if max > 0 then
      let va0 := PGROUNDDOWN srcva
      let pa0 := walkaddr m pagetable va0
      if pa0 = 0 then (-1, [])
      else
        let n := min (PGSIZE - (srcva - va0)) max
        let r := copyinstrPage m n (pa0 + (srcva - va0)) max
        if r.2.1 then (0, r.1)
        else
          let r' := copyinstrLoop m pagetable fuel ((va0 + PGSIZE) % 2 ^ 64) r.2.2
          (r'.1, r.1 ++ r'.2)
    else (-1, [])

/-- `copyinstr(pagetable, dst, srcva, max)`. -/
def copyinstr (m : Mem) (pagetable srcva max : Nat) : Int × List UInt8 :=
  copyinstrLoop m pagetable max srcva max

/-! ## Byte by byte -/

/-- `copyout` one byte at a time. -/
def copyoutBytes (pagetable : Nat) : Mem → Nat → List UInt8 → Int × Mem
  | m, _, [] => (0, m)
  | m, va, c :: cs =>
    match userAddr m pagetable va with
    | none => (-1, m)
    | some p => copyoutBytes pagetable (m.setByte p c) (va + 1) cs

/-- `copyin` one byte at a time. -/
def copyinBytes (m : Mem) (pagetable : Nat) : Nat → Nat → Int × List UInt8
  | _, 0 => (0, [])
  | va, len + 1 =>
    match userAddr m pagetable va with
    | none => (-1, [])
    | some p =>
      let r := copyinBytes m pagetable (va + 1) len
      (r.1, m.bytes p :: r.2)

/-- `copyinstr` one byte at a time. -/
def copyinstrBytes (m : Mem) (pagetable : Nat) : Nat → Nat → Int × List UInt8
  | _, 0 => (-1, [])
  | va, max + 1 =>
    match userAddr m pagetable va with
    | none => (-1, [])
    | some p =>
      if m.bytes p = 0 then (0, [0])
      else
        let r := copyinstrBytes m pagetable (va + 1) max
        (r.1, m.bytes p :: r.2)

/-! ## Addresses -/

section Addr

variable {m m' : Mem} {pt va : Nat}

/-- `walkaddr` reads only the tables. -/
theorem walkaddr_of_tbl (h : m'.tbl = m.tbl) (pt va : Nat) : walkaddr m' pt va = walkaddr m pt va := by
  have ht : translate m' pt va = translate m pt va := translate_congr (fun _ _ _ _ => by rw [h]) va
  rw [walkaddr_eq, walkaddr_eq, ht]

theorem userAddr_of_tbl (h : m'.tbl = m.tbl) (pt va : Nat) : userAddr m' pt va = userAddr m pt va := by
  simp only [userAddr, walkaddr_of_tbl h]

theorem sub_PGROUNDDOWN (va : Nat) : va - PGROUNDDOWN va = va % PGSIZE := by
  unfold PGROUNDDOWN
  have := Nat.div_add_mod va PGSIZE
  rw [Nat.mul_comm] at this
  omega

theorem lt_MAXVA_of_walkaddr (h : walkaddr m pt va ≠ 0) : va < MAXVA := by
  by_contra hva
  rw [walkaddr_eq, if_neg hva] at h
  exact h rfl

theorem userAddr_of_walkaddr_eq_zero (h : walkaddr m pt (PGROUNDDOWN va) = 0) : userAddr m pt va = none := by
  simp [userAddr, h]

theorem userAddr_of_walkaddr_ne_zero (h : walkaddr m pt (PGROUNDDOWN va) ≠ 0) :
    userAddr m pt va = some (walkaddr m pt (PGROUNDDOWN va) + (va - PGROUNDDOWN va)) := by
  simp [userAddr, h]

/-- Within a page, user addresses follow the physical ones. -/
theorem userAddr_add {k : Nat} (hk : va % PGSIZE + k < PGSIZE) :
    userAddr m pt (va + k) = (userAddr m pt va).map (· + k) := by
  have hdown : PGROUNDDOWN (va + k) = PGROUNDDOWN va := by
    unfold PGROUNDDOWN
    unfold PGSIZE at *
    omega
  have hoff := sub_PGROUNDDOWN va
  have hoff' := sub_PGROUNDDOWN (va + k)
  have hle : PGROUNDDOWN va ≤ va := Nat.div_mul_le_self va PGSIZE
  by_cases h : walkaddr m pt (PGROUNDDOWN va) = 0
  · simp [userAddr, hdown, h]
  · simp only [userAddr, hdown, if_neg h, Option.map_some, Option.some.injEq]
    rw [hdown] at hoff'
    omega

/-- The addresses of the `n` bytes from `va` on, `n` within `va`'s page, when
the page has a frame. -/
theorem userAddr_chunk (h : walkaddr m pt (PGROUNDDOWN va) ≠ 0) {n : Nat} (hn : n ≤ PGSIZE - va % PGSIZE) :
    ∀ k < n, userAddr m pt (va + k) = some (walkaddr m pt (PGROUNDDOWN va) + (va - PGROUNDDOWN va) + k) := by
  intro k hk
  have hpos := Nat.mod_lt va (show PGSIZE > 0 by decide)
  rw [userAddr_add (by omega), userAddr_of_walkaddr_ne_zero h]
  rfl

end Addr

/-! ## `copyout` -/

section Copyout

variable {m : Mem} {pt : Nat}

@[simp] theorem copyoutLoop_nil (fuel : Nat) (m : Mem) (va : Nat) : copyoutLoop pt fuel m va [] = (0, m) := by
  cases fuel <;> rfl

/-- Copying the `n` bytes of one page piece is `n` rounds of the byte loop. -/
theorem copyoutBytes_chunk {n p va : Nat} {src : List UInt8} (hp : ∀ k < n, userAddr m pt (va + k) = some (p + k))
    (hn : n ≤ src.length) :
    copyoutBytes pt m va src = copyoutBytes pt (m.writeBytes p (src.take n)) (va + n) (src.drop n) := by
  induction n generalizing m va p src with
  | zero => rfl
  | succ n ih =>
    obtain ⟨c, cs, rfl⟩ : ∃ c cs, src = c :: cs := List.exists_cons_of_ne_nil (by rintro rfl; simp at hn)
    have h0 : userAddr m pt va = some p := by simpa using hp 0 (Nat.succ_pos n)
    -- the rest of the piece, from the next byte, in the memory with this byte written
    have hp' : ∀ k < n, userAddr (m.setByte p c) pt (va + 1 + k) = some (p + 1 + k) := fun k hk => by
      rw [userAddr_of_tbl (Mem.setByte_tbl m p c), show va + 1 + k = va + (k + 1) by omega,
        show p + 1 + k = p + (k + 1) by omega]
      exact hp (k + 1) (by omega)
    simp only [copyoutBytes, h0]
    rw [ih hp' (by simp at hn; omega)]
    simp only [List.take_succ_cons, List.drop_succ_cons, Mem.writeBytes]
    rw [Nat.add_assoc, Nat.add_comm 1 n]

/-- The page loop of `copyout` is the byte loop. -/
theorem copyoutLoop_eq_bytes {fuel va : Nat} {src : List UInt8} (hf : src.length ≤ fuel) :
    copyoutLoop pt fuel m va src = copyoutBytes pt m va src := by
  induction fuel generalizing m va src with
  | zero => rw [List.eq_nil_of_length_eq_zero (Nat.le_zero.mp hf)]; rfl
  | succ fuel ih =>
    cases src with
    | nil => rfl
    | cons c cs =>
      rw [copyoutLoop, if_pos (List.length_pos_of_ne_nil (List.cons_ne_nil c cs))]
      by_cases hw : walkaddr m pt (PGROUNDDOWN va) = 0
      · rw [if_pos hw, copyoutBytes, userAddr_of_walkaddr_eq_zero hw]
      · rw [if_neg hw]
        dsimp only
        -- the piece up to the end of the page or of the bytes
        have hoff := sub_PGROUNDDOWN va
        have hpos := Nat.mod_lt va (show PGSIZE > 0 by decide)
        set n := min (PGSIZE - (va - PGROUNDDOWN va)) (c :: cs).length with hn
        have hchunk := userAddr_chunk hw (show n ≤ PGSIZE - va % PGSIZE by omega)
        rw [copyoutBytes_chunk hchunk (Nat.min_le_right _ _)]
        by_cases hlast : n = (c :: cs).length
        · rw [hlast, List.drop_length, copyoutLoop_nil]
          rfl
        · -- the piece ends the page, and the next starts the next page
          have hva := lt_MAXVA_of_walkaddr hw
          have hnext : (PGROUNDDOWN va + PGSIZE) % 2 ^ 64 = va + n := by
            rw [MAXVA_eq] at hva
            unfold PGROUNDDOWN PGSIZE at *
            omega
          rw [hnext]
          exact ih (by rw [List.length_drop]; omega)

theorem copyout_eq_bytes (m : Mem) (pt va : Nat) (src : List UInt8) :
    copyout m pt va src = copyoutBytes pt m va src :=
  copyoutLoop_eq_bytes (Nat.le_refl _)

end Copyout

/-! ## `copyin` and `copyinstr` -/

section Copyin

variable {m : Mem} {pt : Nat}

theorem Mem.readBytes_succ (m : Mem) (p n : Nat) : m.readBytes p (n + 1) = m.bytes p :: m.readBytes (p + 1) n := by
  simp only [Mem.readBytes, List.range_succ_eq_map, List.map_cons, List.map_map, Nat.add_zero]
  congr 1
  apply List.map_congr_left
  intro k _
  simp only [Function.comp_apply]
  rw [Nat.add_assoc, Nat.add_comm 1 k]

@[simp] theorem copyinLoop_zero (fuel va : Nat) : copyinLoop m pt fuel va 0 = (0, []) := by
  cases fuel <;> rfl

/-- Reading the `n` bytes of one page piece is `n` rounds of the byte loop. -/
theorem copyinBytes_chunk {n p va len : Nat} (hp : ∀ k < n, userAddr m pt (va + k) = some (p + k)) (hn : n ≤ len) :
    copyinBytes m pt va len =
      ((copyinBytes m pt (va + n) (len - n)).1, m.readBytes p n ++ (copyinBytes m pt (va + n) (len - n)).2) := by
  induction n generalizing va p len with
  | zero => simp [Mem.readBytes]
  | succ n ih =>
    obtain ⟨len, rfl⟩ : ∃ len', len = len' + 1 := ⟨len - 1, by omega⟩
    have h0 : userAddr m pt va = some p := by simpa using hp 0 (Nat.succ_pos n)
    have hp' : ∀ k < n, userAddr m pt (va + 1 + k) = some (p + 1 + k) := fun k hk => by
      rw [show va + 1 + k = va + (k + 1) by omega, show p + 1 + k = p + (k + 1) by omega]
      exact hp (k + 1) (by omega)
    simp only [copyinBytes, h0]
    rw [ih hp' (by omega), Mem.readBytes_succ, show va + 1 + n = va + (n + 1) by omega,
      show len - n = len + 1 - (n + 1) by omega]
    rfl

/-- The page loop of `copyin` is the byte loop. -/
theorem copyinLoop_eq_bytes {fuel va len : Nat} (hf : len ≤ fuel) :
    copyinLoop m pt fuel va len = copyinBytes m pt va len := by
  induction fuel generalizing va len with
  | zero => rw [Nat.le_zero.mp hf]; rfl
  | succ fuel ih =>
    cases len with
    | zero => rfl
    | succ len =>
      rw [copyinLoop, if_pos (Nat.succ_pos len)]
      by_cases hw : walkaddr m pt (PGROUNDDOWN va) = 0
      · rw [if_pos hw, copyinBytes, userAddr_of_walkaddr_eq_zero hw]
      · rw [if_neg hw]
        dsimp only
        have hoff := sub_PGROUNDDOWN va
        have hpos := Nat.mod_lt va (show PGSIZE > 0 by decide)
        set n := min (PGSIZE - (va - PGROUNDDOWN va)) (len + 1) with hn
        have hchunk := userAddr_chunk hw (show n ≤ PGSIZE - va % PGSIZE by omega)
        rw [copyinBytes_chunk hchunk (Nat.min_le_right _ _)]
        by_cases hlast : n = len + 1
        · rw [hlast, Nat.sub_self, copyinLoop_zero]
          rfl
        · have hva := lt_MAXVA_of_walkaddr hw
          have hnext : (PGROUNDDOWN va + PGSIZE) % 2 ^ 64 = va + n := by
            rw [MAXVA_eq] at hva
            unfold PGROUNDDOWN PGSIZE at *
            omega
          rw [hnext, ih (by omega)]

theorem copyin_eq_bytes (m : Mem) (pt va len : Nat) : copyin m pt va len = copyinBytes m pt va len :=
  copyinLoop_eq_bytes (Nat.le_refl _)

@[simp] theorem copyinstrLoop_zero (fuel va : Nat) : copyinstrLoop m pt fuel va 0 = (-1, []) := by
  cases fuel <;> rfl

/-- A page piece of `copyinstr` that meets no NUL uses up one of `max` per
byte. -/
theorem copyinstrPage_max {n p max : Nat} (hn : n ≤ max) (h : (copyinstrPage m n p max).2.1 = false) :
    (copyinstrPage m n p max).2.2 = max - n := by
  induction n generalizing p max with
  | zero => rfl
  | succ n ih =>
    by_cases hz : m.bytes p = 0
    · simp [copyinstrPage, hz] at h
    · simp only [copyinstrPage, if_neg hz] at h ⊢
      rw [ih (by omega) h]
      omega

/-- Reading a page piece of `copyinstr` is as many rounds of the byte loop as
it reads bytes. -/
theorem copyinstrBytes_chunk {n p va max : Nat} (hp : ∀ k < n, userAddr m pt (va + k) = some (p + k))
    (hn : n ≤ max) :
    copyinstrBytes m pt va max =
      if (copyinstrPage m n p max).2.1 then (0, (copyinstrPage m n p max).1)
      else ((copyinstrBytes m pt (va + n) (copyinstrPage m n p max).2.2).1,
        (copyinstrPage m n p max).1 ++ (copyinstrBytes m pt (va + n) (copyinstrPage m n p max).2.2).2) := by
  induction n generalizing va p max with
  | zero => simp [copyinstrPage]
  | succ n ih =>
    obtain ⟨max, rfl⟩ : ∃ max', max = max' + 1 := ⟨max - 1, by omega⟩
    have h0 : userAddr m pt va = some p := by simpa using hp 0 (Nat.succ_pos n)
    have hp' : ∀ k < n, userAddr m pt (va + 1 + k) = some (p + 1 + k) := fun k hk => by
      rw [show va + 1 + k = va + (k + 1) by omega, show p + 1 + k = p + (k + 1) by omega]
      exact hp (k + 1) (by omega)
    by_cases hz : m.bytes p = 0
    · simp [copyinstrBytes, copyinstrPage, h0, hz]
    · simp only [copyinstrBytes, copyinstrPage, h0, if_neg hz, Nat.add_sub_cancel]
      rw [ih hp' (by omega), show va + 1 + n = va + (n + 1) by omega]
      cases (copyinstrPage m n (p + 1) max).2.1 <;> rfl

/-- The page loop of `copyinstr` is the byte loop. -/
theorem copyinstrLoop_eq_bytes {fuel va max : Nat} (hf : max ≤ fuel) :
    copyinstrLoop m pt fuel va max = copyinstrBytes m pt va max := by
  induction fuel generalizing va max with
  | zero => rw [Nat.le_zero.mp hf]; rfl
  | succ fuel ih =>
    cases max with
    | zero => rfl
    | succ max =>
      rw [copyinstrLoop, if_pos (Nat.succ_pos max)]
      by_cases hw : walkaddr m pt (PGROUNDDOWN va) = 0
      · rw [if_pos hw, copyinstrBytes, userAddr_of_walkaddr_eq_zero hw]
      · rw [if_neg hw]
        dsimp only
        have hoff := sub_PGROUNDDOWN va
        have hpos := Nat.mod_lt va (show PGSIZE > 0 by decide)
        set n := min (PGSIZE - (va - PGROUNDDOWN va)) (max + 1) with hn
        have hchunk := userAddr_chunk hw (show n ≤ PGSIZE - va % PGSIZE by omega)
        rw [copyinstrBytes_chunk hchunk (Nat.min_le_right _ _)]
        cases hnul : (copyinstrPage m n (walkaddr m pt (PGROUNDDOWN va) + (va - PGROUNDDOWN va)) (max + 1)).2.1 with
        | true => rfl
        | false =>
          simp only [Bool.false_eq_true, if_false]
          -- without a NUL in the piece, `max` went down by its length
          rw [copyinstrPage_max (Nat.min_le_right _ _) hnul]
          by_cases hlast : n = max + 1
          · have hzero : max + 1 - n = 0 := by omega
            rw [hzero, copyinstrLoop_zero]
            rfl
          · have hva := lt_MAXVA_of_walkaddr hw
            have hnext : (PGROUNDDOWN va + PGSIZE) % 2 ^ 64 = va + n := by
              rw [MAXVA_eq] at hva
              unfold PGROUNDDOWN PGSIZE at *
              omega
            rw [hnext, ih (by omega)]

theorem copyinstr_eq_bytes (m : Mem) (pt va max : Nat) : copyinstr m pt va max = copyinstrBytes m pt va max :=
  copyinstrLoop_eq_bytes (Nat.le_refl _)

end Copyin

/-! ## The contracts, byte by byte -/

/-- Every byte of the `n` from `va` on has a user address. -/
def UserRange (m : Mem) (pt va n : Nat) : Prop := ∀ k < n, (userAddr m pt (va + k)).isSome

instance (m : Mem) (pt va n : Nat) : Decidable (UserRange m pt va n) :=
  inferInstanceAs (Decidable (∀ k < n, (userAddr m pt (va + k)).isSome))

/-- The bytes from `va` to `va + k` have user addresses, and the one at
`va + k` is the first NUL. -/
def FirstNul (m : Mem) (pt va k : Nat) : Prop :=
  ∀ j ≤ k, ∃ p, userAddr m pt (va + j) = some p ∧ (m.bytes p = 0 ↔ j = k)

section Spec

variable {m : Mem} {pt : Nat}

theorem userRange_succ {va n : Nat} :
    UserRange m pt va (n + 1) ↔ (userAddr m pt va).isSome ∧ UserRange m pt (va + 1) n := by
  unfold UserRange
  rw [Nat.forall_lt_succ_left']
  simp only [Nat.add_zero, Nat.add_assoc, Nat.add_comm 1]

theorem userRange_of_tbl {m' : Mem} (h : m'.tbl = m.tbl) {va n : Nat} :
    UserRange m' pt va n ↔ UserRange m pt va n := by
  simp only [UserRange, userAddr_of_tbl h]

theorem copyoutBytes_mem (m : Mem) (va : Nat) (src : List UInt8) :
    (copyoutBytes pt m va src).2.tbl = m.tbl ∧ (copyoutBytes pt m va src).2.free = m.free := by
  induction src generalizing m va with
  | nil => exact ⟨rfl, rfl⟩
  | cons c cs ih =>
    unfold copyoutBytes
    split
    · exact ⟨rfl, rfl⟩
    · obtain ⟨h₁, h₂⟩ := ih (m.setByte _ c) (va + 1)
      exact ⟨h₁, h₂⟩

/-- `copyout` returns `0` exactly when every byte of the range has a user
address, and `-1` otherwise. -/
theorem copyoutBytes_fst (m : Mem) (va : Nat) (src : List UInt8) :
    (copyoutBytes pt m va src).1 = if UserRange m pt va src.length then 0 else -1 := by
  induction src generalizing m va with
  | nil => simp [copyoutBytes, UserRange]
  | cons c cs ih =>
    simp only [List.length_cons, userRange_succ]
    cases h : userAddr m pt va with
    | none => simp [copyoutBytes, h]
    | some p =>
      simp only [copyoutBytes, h, ih, userRange_of_tbl (Mem.setByte_tbl m p c), Option.isSome_some,
        true_and]

/-- With every byte of the range at a user address, and no two at the same one,
`copyout` leaves each source byte at its address and every other byte as it
was. -/
theorem copyoutBytes_bytes {va : Nat} {src : List UInt8} (hall : UserRange m pt va src.length)
    (hinj : ∀ i j p, i < src.length → j < src.length → userAddr m pt (va + i) = some p →
      userAddr m pt (va + j) = some p → i = j) :
    (∀ k (hk : k < src.length) p, userAddr m pt (va + k) = some p →
        (copyoutBytes pt m va src).2.bytes p = src[k]) ∧
      ∀ b, (∀ k < src.length, userAddr m pt (va + k) ≠ some b) → (copyoutBytes pt m va src).2.bytes b = m.bytes b := by
  induction src generalizing m va with
  | nil => exact ⟨fun k hk => absurd hk (Nat.not_lt_zero k), fun _ _ => rfl⟩
  | cons c cs ih =>
    obtain ⟨p₀, hp₀⟩ := Option.isSome_iff_exists.mp (hall 0 (Nat.succ_pos _))
    rw [Nat.add_zero] at hp₀
    have hshift : ∀ k, userAddr (m.setByte p₀ c) pt (va + 1 + k) = userAddr m pt (va + (k + 1)) := fun k => by
      rw [userAddr_of_tbl (Mem.setByte_tbl m p₀ c), Nat.add_assoc, Nat.add_comm 1 k]
    -- the rest of the bytes, copied into the memory with the first one written
    obtain ⟨hexact, hframe⟩ := @ih (m.setByte p₀ c) (va + 1)
      (fun k hk => by rw [hshift]; exact hall (k + 1) (by simp; omega))
      (fun i j p hi hj hpi hpj => by
        rw [hshift] at hpi hpj
        have := hinj (i + 1) (j + 1) p (by simp; omega) (by simp; omega) hpi hpj
        omega)
    -- no later byte lands where the first did
    have hfirst : ∀ k < cs.length, userAddr (m.setByte p₀ c) pt (va + 1 + k) ≠ some p₀ := fun k hk hk' => by
      rw [hshift] at hk'
      have := hinj (k + 1) 0 p₀ (by simp; omega) (by simp) hk' (by rw [Nat.add_zero]; exact hp₀)
      omega
    simp only [copyoutBytes, hp₀]
    refine ⟨fun k hk p hp => ?_, fun b hb => ?_⟩
    · cases k with
      | zero =>
        rw [Nat.add_zero, hp₀, Option.some.injEq] at hp
        subst hp
        rw [hframe p₀ hfirst]
        simp [Mem.setByte]
      | succ k =>
        rw [← hshift] at hp
        exact hexact k (by simp at hk; omega) p hp
    · have hne : b ≠ p₀ := fun h => hb 0 (Nat.succ_pos _) (by rw [Nat.add_zero, hp₀, h])
      rw [hframe b fun k hk h => hb (k + 1) (by simp; omega) (by rw [← hshift]; exact h)]
      simp [Mem.setByte, hne]

/-- `copyin` returns `0` exactly when every byte of the range has a user
address, and then it has read each of them, in order. -/
theorem copyinBytes_spec (m : Mem) (va len : Nat) :
    (copyinBytes m pt va len).1 = (if UserRange m pt va len then 0 else -1) ∧
      (UserRange m pt va len → (copyinBytes m pt va len).2.length = len ∧
        ∀ k < len, (copyinBytes m pt va len).2[k]? = (userAddr m pt (va + k)).map m.bytes) := by
  induction len generalizing va with
  | zero => simp [copyinBytes, UserRange]
  | succ len ih =>
    simp only [userRange_succ]
    cases h : userAddr m pt va with
    | none => simp [copyinBytes, h]
    | some p =>
      obtain ⟨ih₁, ih₂⟩ := ih (va + 1)
      simp only [copyinBytes, h, ih₁, Option.isSome_some, true_and, List.length_cons]
      intro hall
      obtain ⟨hlen, hget⟩ := ih₂ hall
      refine ⟨by rw [hlen], fun k hk => ?_⟩
      cases k with
      | zero => simp [h]
      | succ k =>
        rw [List.getElem?_cons_succ, hget k (by omega), Nat.add_assoc, Nat.add_comm 1 k]

theorem firstNul_zero_iff {va : Nat} : FirstNul m pt va 0 ↔ ∃ p, userAddr m pt va = some p ∧ m.bytes p = 0 := by
  constructor
  · intro h
    obtain ⟨p, hp, hz⟩ := h 0 (Nat.le_refl 0)
    exact ⟨p, by simpa using hp, hz.mpr rfl⟩
  · rintro ⟨p, hp, hz⟩ j hj
    obtain rfl : j = 0 := Nat.le_zero.mp hj
    exact ⟨p, by simpa using hp, iff_of_true hz rfl⟩

/-- Past a mapped byte that is not NUL, the first NUL is one further on. -/
theorem firstNul_succ {va p k : Nat} (hp : userAddr m pt va = some p) (hz : m.bytes p ≠ 0) :
    FirstNul m pt va (k + 1) ↔ FirstNul m pt (va + 1) k := by
  unfold FirstNul
  constructor
  · intro h j hj
    obtain ⟨q, hq, hiff⟩ := h (j + 1) (by omega)
    exact ⟨q, by rwa [Nat.add_assoc, Nat.add_comm 1 j], by rw [hiff]; omega⟩
  · intro h j hj
    cases j with
    | zero => exact ⟨p, by simpa using hp, iff_of_false hz (by omega)⟩
    | succ j =>
      obtain ⟨q, hq, hiff⟩ := h j (by omega)
      exact ⟨q, by rwa [Nat.add_assoc, Nat.add_comm 1 j] at hq, by rw [hiff]; omega⟩

theorem not_firstNul_zero_of_ne {va p : Nat} (hp : userAddr m pt va = some p) (hz : m.bytes p ≠ 0) :
    ¬ FirstNul m pt va 0 := by
  rw [firstNul_zero_iff]
  rintro ⟨q, hq, hq'⟩
  rw [hp, Option.some.injEq] at hq
  exact hz (hq ▸ hq')

/-- `copyinstr` returns `0` or `-1`; `0` exactly when a NUL is met among the
first `max` bytes, all at user addresses before it; it never writes more than
`max` bytes, and on success it has copied the string with its NUL. -/
theorem copyinstrBytes_spec (m : Mem) (va max : Nat) :
    ((copyinstrBytes m pt va max).1 = 0 ∨ (copyinstrBytes m pt va max).1 = -1) ∧
      ((copyinstrBytes m pt va max).1 = 0 ↔ ∃ k < max, FirstNul m pt va k) ∧
      (copyinstrBytes m pt va max).2.length ≤ max ∧
      ∀ k < max, FirstNul m pt va k → (copyinstrBytes m pt va max).2 =
        (List.range (k + 1)).map fun j => ((userAddr m pt (va + j)).map m.bytes).getD 0 := by
  induction max generalizing va with
  | zero => simp [copyinstrBytes]
  | succ max ih =>
    cases h : userAddr m pt va with
    | none =>
      -- the first byte has no user address, so no string starts here
      have hno : ∀ k, ¬ FirstNul m pt va k := fun k hk => by
        obtain ⟨p, hp, -⟩ := hk 0 (Nat.zero_le k)
        rw [Nat.add_zero, h] at hp
        cases hp
      simp [copyinstrBytes, h, hno]
    | some p =>
      by_cases hz : m.bytes p = 0
      · have h0 : FirstNul m pt va 0 := firstNul_zero_iff.mpr ⟨p, h, hz⟩
        -- a string starting here ends at its first byte
        have honly : ∀ k, FirstNul m pt va k → k = 0 := fun k hk => by
          obtain ⟨q, hq, hiff⟩ := hk 0 (Nat.zero_le k)
          rw [Nat.add_zero, h, Option.some.injEq] at hq
          subst hq
          exact (hiff.mp hz).symm
        simp only [copyinstrBytes, h, if_pos hz, List.length_singleton]
        refine ⟨.inl trivial, iff_of_true trivial ⟨0, Nat.succ_pos _, h0⟩, by omega, fun k _ hk => ?_⟩
        obtain rfl := honly k hk
        simp [h, hz]
      · obtain ⟨ih₁, ih₂, ih₃, ih₄⟩ := ih (va + 1)
        simp only [copyinstrBytes, h, if_neg hz, List.length_cons]
        refine ⟨ih₁, ⟨fun h0 => ?_, fun ⟨k, hk, hf⟩ => ?_⟩, by omega, fun k hk hf => ?_⟩
        · obtain ⟨k, hk, hf⟩ := ih₂.mp h0
          exact ⟨k + 1, by omega, (firstNul_succ h hz).mpr hf⟩
        · cases k with
          | zero => exact absurd hf (not_firstNul_zero_of_ne h hz)
          | succ k => exact ih₂.mpr ⟨k, by omega, (firstNul_succ h hz).mp hf⟩
        · cases k with
          | zero => exact absurd hf (not_firstNul_zero_of_ne h hz)
          | succ k =>
            rw [ih₄ k (by omega) ((firstNul_succ h hz).mp hf)]
            conv_rhs => rw [List.range_succ_eq_map, List.map_cons, List.map_map]
            simp only [Nat.add_zero, h, Option.map_some, Option.getD_some, List.cons.injEq, true_and]
            apply List.map_congr_left
            intro j _
            simp only [Function.comp_apply, Nat.succ_eq_add_one, Nat.add_assoc, Nat.add_comm 1 j]

end Spec

/-! ## Through the map -/

theorem translate_PGROUNDDOWN (m : Mem) (pt va : Nat) : translate m pt (PGROUNDDOWN va) = translate m pt va := by
  have h2 : PX 2 (PGROUNDDOWN va) = PX 2 va := by simp only [PX_eq, PGROUNDDOWN, PGSIZE]; omega
  have h1 : PX 1 (PGROUNDDOWN va) = PX 1 va := by simp only [PX_eq, PGROUNDDOWN, PGSIZE]; omega
  have h0 : PX 0 (PGROUNDDOWN va) = PX 0 va := by simp only [PX_eq, PGROUNDDOWN, PGSIZE]; omega
  simp only [translate, leafSlot, h2, h1, h0]

/-- A user address has a physical one exactly when it lies below `MAXVA` in a
page the map sends, with `PTE_U`, to a frame other than `0`. -/
theorem userAddr_eq_some {m : Mem} {pt va p : Nat} :
    userAddr m pt va = some p ↔ va < MAXVA ∧ ∃ pa fl, translate m pt va = some (pa, fl) ∧
      fl &&& PTE_U ≠ 0 ∧ pa ≠ 0 ∧ p = pa + va % PGSIZE := by
  have hlt : PGROUNDDOWN va < MAXVA ↔ va < MAXVA := by
    rw [MAXVA_eq]
    unfold PGROUNDDOWN PGSIZE
    omega
  rw [userAddr, sub_PGROUNDDOWN, walkaddr_eq, translate_PGROUNDDOWN]
  by_cases hva : va < MAXVA
  · simp only [if_pos (hlt.mpr hva), hva, true_and]
    cases ht : translate m pt va with
    | none => simp
    | some x =>
      obtain ⟨pa, fl⟩ := x
      by_cases hu : fl &&& PTE_U ≠ 0
      · by_cases hpa : pa = 0 <;> simp [hu, hpa, eq_comm]
      · simp [hu]
  · simp [mt hlt.mp hva, hva]

/-- The user copy functions read through `userAddr`: `copyout` and `copyin`
return `0` exactly when every byte of the range has a user address, and `-1`
otherwise; `copyout` changes neither the tables nor the free pages (in the code,
on the premise of `Xv6.Vm.Basic` that no user page is a page-table page), and, when
no two bytes of the range share an address, leaves each source byte at its
address and every other byte as it was; `copyin` reads the bytes in order;
`copyinstr` returns `0` or `-1`, `0` exactly when a NUL is met among the first
`max` bytes with every byte up to it at a user address, then having copied
them with the NUL, and never writes more than `max` bytes. -/
theorem copy_user_contracts (m : Mem) (pt : Nat) :
    (∀ dstva (src : List UInt8),
      (copyout m pt dstva src).1 = (if UserRange m pt dstva src.length then 0 else -1) ∧
      (copyout m pt dstva src).2.tbl = m.tbl ∧ (copyout m pt dstva src).2.free = m.free ∧
      (UserRange m pt dstva src.length →
        (∀ i j p, i < src.length → j < src.length → userAddr m pt (dstva + i) = some p →
          userAddr m pt (dstva + j) = some p → i = j) →
        (∀ k (hk : k < src.length) p, userAddr m pt (dstva + k) = some p →
          (copyout m pt dstva src).2.bytes p = src[k]) ∧
        ∀ b, (∀ k < src.length, userAddr m pt (dstva + k) ≠ some b) →
          (copyout m pt dstva src).2.bytes b = m.bytes b)) ∧
    (∀ srcva len, (copyin m pt srcva len).1 = (if UserRange m pt srcva len then 0 else -1) ∧
      (UserRange m pt srcva len → (copyin m pt srcva len).2.length = len ∧
        ∀ k < len, (copyin m pt srcva len).2[k]? = (userAddr m pt (srcva + k)).map m.bytes)) ∧
    (∀ srcva max, ((copyinstr m pt srcva max).1 = 0 ∨ (copyinstr m pt srcva max).1 = -1) ∧
      ((copyinstr m pt srcva max).1 = 0 ↔ ∃ k < max, FirstNul m pt srcva k) ∧
      (copyinstr m pt srcva max).2.length ≤ max ∧
      ∀ k < max, FirstNul m pt srcva k → (copyinstr m pt srcva max).2 =
        (List.range (k + 1)).map fun j => ((userAddr m pt (srcva + j)).map m.bytes).getD 0) := by
  refine ⟨fun dstva src => ?_, fun srcva len => ?_, fun srcva max => ?_⟩
  · obtain ⟨htbl, hfree⟩ := @copyoutBytes_mem pt m dstva src
    rw [copyout_eq_bytes]
    exact ⟨copyoutBytes_fst m dstva src, htbl, hfree, fun hall hinj => copyoutBytes_bytes hall hinj⟩
  · rw [copyin_eq_bytes]
    exact copyinBytes_spec m srcva len
  · rw [copyinstr_eq_bytes]
    exact copyinstrBytes_spec m srcva max

/-- Ten bytes copied out to six bytes before a page boundary, over two pages
mapped to two frames of RAM: the copy succeeds, the first six bytes end the
first frame and the last four start the second. -/
theorem copy_user_contracts_page :
    let m : Mem := ⟨fun pt i =>
        if pt = 0x80001000 ∧ i = 0 then PA2PTE 0x80002000 ||| PTE_V
        else if pt = 0x80002000 ∧ i = 0 then PA2PTE 0x80003000 ||| PTE_V
        else if pt = 0x80003000 ∧ i = 1 then PA2PTE 0x80004000 ||| PTE_U ||| PTE_R ||| PTE_W ||| PTE_V
        else if pt = 0x80003000 ∧ i = 2 then PA2PTE 0x80007000 ||| PTE_U ||| PTE_R ||| PTE_W ||| PTE_V
        else 0,
      fun _ => 0, []⟩
    let src : List UInt8 := [1, 2, 3, 4, 5, 6, 7, 8, 9, 10]
    (copyout m 0x80001000 0x1FFA src).1 = 0 ∧ (copyout m 0x80001000 0x1FFA src).2.bytes 0x80004FFA = 1 ∧
      (copyout m 0x80001000 0x1FFA src).2.bytes 0x80007003 = 10 := by
  intro m src
  obtain ⟨hout, -, -⟩ := copy_user_contracts m 0x80001000
  obtain ⟨hret, -, -, hbytes⟩ := hout 0x1FFA src
  have hall : UserRange m 0x80001000 0x1FFA src.length := by decide
  -- the ten bytes have ten different addresses
  have hdist : ∀ i < 10, ∀ j < 10,
      userAddr m 0x80001000 (0x1FFA + i) = userAddr m 0x80001000 (0x1FFA + j) → i = j := by decide
  obtain ⟨hsrc, -⟩ := hbytes hall fun i j p hi hj hpi hpj => hdist i hi j hj (hpi.trans hpj.symm)
  exact ⟨by rw [hret]; exact if_pos hall, hsrc 0 (by decide) _ (by decide), hsrc 9 (by decide) _ (by decide)⟩

/-- The contracts need frames other than `0` and distinct addresses: a page
mapped with `PTE_U` to frame `0` makes `copyout` fail, and two pages mapped to
one frame make the second page's bytes overwrite the first's. -/
theorem copyout_frame_zero_or_shared :
    let m : Mem := ⟨fun pt i => if pt = 0x80001000 ∧ i = 0 then PA2PTE 0x80002000 ||| PTE_V
      else if pt = 0x80002000 ∧ i = 0 then PA2PTE 0x80003000 ||| PTE_V
      else if pt = 0x80003000 ∧ i = 0 then PA2PTE 0 ||| PTE_U ||| PTE_R ||| PTE_W ||| PTE_V
      else if pt = 0x80003000 ∧ (i = 1 ∨ i = 2) then PA2PTE 0x80004000 ||| PTE_U ||| PTE_R ||| PTE_W ||| PTE_V
      else 0,
      fun _ => 0, []⟩
    (translate m 0x80001000 0 = some (0, PTE_U ||| PTE_R ||| PTE_W ||| PTE_V) ∧
        (copyout m 0x80001000 0 [1]).1 = -1) ∧
      (translate m 0x80001000 4096 = some (0x80004000, PTE_U ||| PTE_R ||| PTE_W ||| PTE_V) ∧
        translate m 0x80001000 8192 = some (0x80004000, PTE_U ||| PTE_R ||| PTE_W ||| PTE_V) ∧
        (copyout m 0x80001000 4096 (List.replicate 4096 1 ++ [2])).1 = 0 ∧
        (copyout m 0x80001000 4096 (List.replicate 4096 1 ++ [2])).2.bytes 0x80004000 = 2) := by
  intro m
  refine ⟨⟨by decide, by decide⟩, by decide, by decide, ?_⟩
  -- the first page is one piece of 4096 bytes, then the last byte lands on the same frame
  have hw : walkaddr m 0x80001000 (PGROUNDDOWN 4096) ≠ 0 := by decide
  have hchunk := userAddr_chunk hw (show 4096 ≤ PGSIZE - 4096 % PGSIZE by decide)
  have hlen : 4096 ≤ (List.replicate 4096 (1 : UInt8) ++ [2]).length := by
    rw [List.length_append, List.length_replicate]
    exact Nat.le_add_right _ _
  have hlast : ∀ m' : Mem, m'.tbl = m.tbl → userAddr m' 0x80001000 (4096 + 4096) = some 0x80004000 :=
    fun m' h => by
      rw [userAddr_of_tbl h]
      decide
  have hp : walkaddr m 0x80001000 (PGROUNDDOWN 4096) + (4096 - PGROUNDDOWN 4096) = 0x80004000 := by decide
  rw [copyout_eq_bytes, copyoutBytes_chunk hchunk hlen, List.take_left' List.length_replicate,
    List.drop_left' List.length_replicate, hp]
  simp only [copyoutBytes, hlast _ (Mem.writeBytes_tbl _ _ _)]
  exact ⟨trivial, by simp only [Mem.setByte, Function.update_self]⟩

end Xv6
