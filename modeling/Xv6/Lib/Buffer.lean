import Mathlib

/-!
# Strings in a buffer

A buffer is a list; a string in it is read from an offset up to the first character that stops
it, and strings are cut by writing a terminator over characters. `takeWhile_drop_eq` reads back a
string whose characters all pass and whose next character stops, and `getElem?_foldl_set` says
where a list of writes has put terminators.
-/

namespace List

variable {α : Type}

/-- Reading from offset `q` while `p` holds gives `w`, when `w` stands at `q`, passes `p`, and
what follows it does not. -/
theorem takeWhile_drop_eq {p : α → Bool} (l w : List α) (q : Nat)
    (hw : ∀ j < w.length, l[q + j]? = w[j]?) (hp : ∀ a ∈ w, p a = true)
    (hstop : ∀ a, l[q + w.length]? = some a → p a = false) : (l.drop q).takeWhile p = w := by
  induction w generalizing q with
  | nil =>
    cases hd : l.drop q with
    | nil => rfl
    | cons a t =>
      have ha : (l.drop q)[0]? = some a := by rw [hd]; rfl
      simp [hstop a (by simpa [List.getElem?_drop] using ha)]
  | cons a w ih =>
    have ha : l[q]? = some a := by simpa using hw 0 (by simp)
    have hrest : (l.drop (q + 1)).takeWhile p = w :=
      ih (q + 1) (fun j hj => by simpa [Nat.add_assoc, Nat.add_comm 1 j] using hw (j + 1) (by simpa using hj))
        (fun b hb => hp b (List.mem_cons_of_mem a hb))
        (fun b hb => hstop b (by simpa [Nat.add_assoc, Nat.add_comm 1] using hb))
    have hd : l.drop q = a :: l.drop (q + 1) := by
      rw [List.drop_eq_getElem_cons (by exact (List.getElem?_eq_some_iff.mp ha).1)]
      congr 1
      exact (List.getElem?_eq_some_iff.mp ha).2
    rw [hd, List.takeWhile_cons_of_pos (hp a List.mem_cons_self), hrest]

/-- Writing `x` at the second component of each of `xs`: the written places hold `x`, the rest
is as it was. -/
theorem getElem?_foldl_set {β : Type} (xs : List (β × Nat)) (x : α) (l : List α) (i : Nat) :
    (xs.foldl (fun b w => b.set w.2 x) l)[i]? = if i ∈ xs.map Prod.snd then l[i]?.map fun _ => x else l[i]? := by
  induction xs generalizing l with
  | nil => simp
  | cons w xs ih =>
    rw [List.foldl_cons, ih, List.getElem?_set]
    by_cases hi : i ∈ xs.map Prod.snd <;> by_cases hw : w.2 = i
    · subst hw
      by_cases hlt : w.2 < l.length <;> simp_all
    · simp_all
    · subst hw
      by_cases hlt : w.2 < l.length <;> simp_all
    · have hw' : i ≠ w.2 := fun h => hw h.symm
      simp [hi, hw, hw']

/-- `l` with `bs` written over it from index `off`; past the end of `l`, `bs` extends it. -/
def writeAt (l : List α) (off : Nat) (bs : List α) : List α := l.take off ++ bs ++ l.drop (off + bs.length)

theorem length_writeAt {l bs : List α} {off : Nat} (h : off ≤ l.length) :
    (l.writeAt off bs).length = max l.length (off + bs.length) := by
  simp only [writeAt, length_append, length_take, length_drop]
  omega

theorem getElem?_writeAt {l bs : List α} {off : Nat} (h : off ≤ l.length) (p : Nat) :
    (l.writeAt off bs)[p]? = if off ≤ p ∧ p < off + bs.length then bs[p - off]? else l[p]? := by
  unfold writeAt
  rw [List.append_assoc, List.getElem?_append]
  have htake : (l.take off).length = off := by simp [h]
  split_ifs with hlo hin hin
  · omega
  · rw [List.getElem?_take_of_lt (by omega)]
  · rw [htake, List.getElem?_append_left (by omega)]
  · rw [htake, List.getElem?_append_right (by omega), List.getElem?_drop]
    congr 1
    omega

/-- What was written is read back from where it was written. -/
theorem take_drop_writeAt {l bs : List α} {off : Nat} (h : off ≤ l.length) :
    ((l.writeAt off bs).drop off).take bs.length = bs := by
  have htake : (l.take off).length = off := by simp [h]
  rw [writeAt, List.append_assoc, List.drop_append_of_le_length (by omega), List.drop_of_length_le (by omega),
    List.nil_append, List.take_left']
  rfl

end List
