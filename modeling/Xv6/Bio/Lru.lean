import Mathlib
import Xv6.Lib.Fallible
import Xv6.Bio.Basic

/-!
# The buffer cache as a list

The buffer cache of `Xv6.Bio.Basic` keeps its order in link words. Read
abstractly, it is a list of the buffers, most recently released first: `bget`
takes the first buffer along the list that holds the block, or else the last
one without references; `brelse` moves a buffer whose last reference went to
the front. `Lru` is that reading, with the same buffer fields.

`Refines c a` says that the pointer model `c` is the list model `a`: the same
fields, and the list through `head` visits the buffers in `a.order`, each once.
Every operation keeps it and hands out the same buffer in both models
(`Refines.bget`, `Refines.brelse`, ...), so a run of the list model is a run
of the code; the list model is what can be evaluated on a concrete run.
-/

namespace Xv6.Bio

open Intrusive

/-- The buffer cache as a list: the buffers' fields and the list order, most
recently used first. -/
structure Lru where
  buf : Fin NBUF → Buf
  order : List (Fin NBUF)

namespace Lru

/-- Replace the fields of buffer `b`. -/
def setBuf (a : Lru) (b : Fin NBUF) (x : Buf) : Lru :=
  { a with buf := Function.update a.buf b x }

def bpin (a : Lru) (b : Fin NBUF) : Lru :=
  a.setBuf b { a.buf b with refcnt := (a.buf b).refcnt + 1 }

def bunpin (a : Lru) (b : Fin NBUF) : Lru :=
  a.setBuf b { a.buf b with refcnt := (a.buf b).refcnt - 1 }

/-- The first buffer along the list that holds the block, with one more
reference; else the last unreferenced one, recycled. -/
def bget (a : Lru) (dev blockno : Nat) : Option (Fin NBUF × Lru) :=
  match a.order.find? fun b => (a.buf b).dev == dev && (a.buf b).blockno == blockno with
  | some b => some (b, a.bpin b)
  | none =>
    match a.order.reverse.find? fun b => (a.buf b).refcnt == 0 with
    | some b => some (b, a.setBuf b ⟨false, dev, blockno, 1⟩)
    | none => none

def bread (a : Lru) (dev blockno : Nat) : Option (Fin NBUF × Lru) :=
  (a.bget dev blockno).map fun (b, a') =>
    (b, if (a'.buf b).valid then a' else a'.setBuf b { a'.buf b with valid := true })

/-- One reference less; a buffer left without references goes to the front. -/
def brelse (a : Lru) (b : Fin NBUF) : Lru :=
  let a₁ := a.bunpin b
  if (a₁.buf b).refcnt = 0 then { a₁ with order := b :: a₁.order.erase b } else a₁

/-- The list after `binit`: the buffers in reverse array order. -/
def binit : Lru := ⟨Bio.binit.buf, (List.finRange NBUF).reverse⟩

end Lru

/-- The pointer model `c` is the list model `a`. -/
structure Refines (c : BCache) (a : Lru) : Prop where
  buf : c.buf = a.buf
  circ : Circ c.link .head (a.order.map .buf)
  complete : ∀ b, b ∈ a.order

namespace Refines

variable {c : BCache} {a : Lru}

theorem nodup (h : Refines c a) : a.order.Nodup :=
  (List.nodup_map_iff (fun _ _ h => Node.buf.inj h)).mp (List.nodup_cons.mp h.circ.nodup).2

theorem length (h : Refines c a) : a.order.length = NBUF := by
  have hfin : a.order.toFinset = Finset.univ :=
    Finset.eq_univ_iff_forall.mpr (by simpa using h.complete)
  rw [← List.toFinset_card_of_nodup h.nodup, hfin, Finset.card_univ, Fintype.card_fin]

theorem setBuf (h : Refines c a) (b : Fin NBUF) (x : Buf) : Refines (c.setBuf b x) (a.setBuf b x) :=
  ⟨by simp [BCache.setBuf, Lru.setBuf, h.buf], h.circ, h.complete⟩

theorem bpin (h : Refines c a) (b : Fin NBUF) : Refines (Bio.bpin c b) (a.bpin b) := by
  unfold Bio.bpin Lru.bpin
  rw [h.buf]
  exact h.setBuf b _

theorem bunpin (h : Refines c a) (b : Fin NBUF) : Refines (Bio.bunpin c b) (a.bunpin b) := by
  unfold Bio.bunpin Lru.bunpin
  rw [h.buf]
  exact h.setBuf b _

/-- The forward scan is a search along the list. -/
theorem findNext_eq (h : Refines c a) (dev blockno : Nat) :
    findNext c.link .head (cached c dev blockno) (NBUF + 1) (c.link .head).next =
      (a.order.find? fun b => (a.buf b).dev == dev && (a.buf b).blockno == blockno).map .buf := by
  rw [h.circ.findNext_eq _ (by simp [h.length]), List.find?_map]
  congr 1
  simp only [Function.comp_def, cached_buf, h.buf]

/-- The backward scan is a search along the reversed list. -/
theorem findPrev_eq (h : Refines c a) :
    findPrev c.link .head (unused c) (NBUF + 1) (c.link .head).prev =
      (a.order.reverse.find? fun b => (a.buf b).refcnt == 0).map .buf := by
  rw [h.circ.findPrev_eq _ (by simp [h.length]), ← List.map_reverse, List.find?_map]
  congr 1
  simp only [Function.comp_def, unused_buf, h.buf]

/-- Both models hand out the same buffer and stay related: a hit in both, a
recycle of the same buffer in both, or no buffer in either. -/
theorem bget (h : Refines c a) (dev blockno : Nat) :
    Option.Rel (fun p q => p.1 = q.1 ∧ Refines p.2 q.2) (Bio.bget c dev blockno)
      (a.bget dev blockno) := by
  unfold Bio.bget Lru.bget
  rw [h.findNext_eq, h.findPrev_eq]
  cases a.order.find? fun b => (a.buf b).dev == dev && (a.buf b).blockno == blockno with
  | some b => exact .some ⟨rfl, h.bpin b⟩
  | none =>
    cases a.order.reverse.find? fun b => (a.buf b).refcnt == 0 with
    | some b => exact .some ⟨rfl, h.setBuf b _⟩
    | none => exact .none

theorem bread (h : Refines c a) (dev blockno : Nat) :
    Option.Rel (fun p q => p.1 = q.1 ∧ Refines p.2 q.2) (Bio.bread c dev blockno)
      (a.bread dev blockno) := by
  refine (h.bget dev blockno).map fun p q ⟨hb, hr⟩ => ?_
  obtain ⟨b, c'⟩ := p
  obtain ⟨b', a'⟩ := q
  dsimp only at hb hr ⊢
  subst hb
  refine ⟨rfl, ?_⟩
  rw [hr.buf]
  split_ifs
  · exact hr
  · exact hr.setBuf b _

/-- `brelse` moves the buffer to the front in both models alike. -/
theorem brelse (h : Refines c a) (b : Fin NBUF) : Refines (Bio.brelse c b) (a.brelse b) := by
  have h₁ := h.bunpin b
  unfold Bio.brelse Lru.brelse
  dsimp only
  rw [h₁.buf]
  split_ifs with h0
  · obtain ⟨o₁, o₂, ho⟩ := List.append_of_mem (h.complete b)
    have hnd : (o₁ ++ b :: o₂).Nodup := ho ▸ h.nodup
    have hb₁ : b ∉ o₁ := fun hb => (List.nodup_middle.mp hnd |> List.nodup_cons.mp).1
      (List.mem_append_left o₂ hb)
    -- the list without `b` is the two parts around it
    have herase : (a.bunpin b).order.erase b = o₁ ++ o₂ := by
      show a.order.erase b = o₁ ++ o₂
      rw [ho, List.erase_append_right _ hb₁, List.erase_cons_head]
    refine ⟨rfl, ?_, fun x => ?_⟩
    · rw [herase]
      have hcirc := h₁.circ
      rw [show (a.bunpin b).order = a.order from rfl, ho] at hcirc
      exact circ_moveFront hcirc
    · rw [herase]
      rcases List.mem_append.mp (ho ▸ h.complete x) with hx | hx
      · exact List.mem_cons_of_mem b (List.mem_append_left o₂ hx)
      · rcases List.mem_cons.mp hx with rfl | hx
        · exact List.mem_cons_self
        · exact List.mem_cons_of_mem b (List.mem_append_right o₁ hx)
  · exact h₁

end Refines

/-- `binit` is the list of the buffers in reverse array order. -/
theorem refines_binit : Refines Bio.binit Lru.binit := by
  refine ⟨rfl, ?_, by simp [Lru.binit]⟩
  have hnd : (Node.head :: ([] : List Node) ++ (List.finRange NBUF).map Node.buf).Nodup := by
    simp [List.nodup_map_iff (fun _ _ h => Node.buf.inj h), List.nodup_finRange]
  have hfold := Circ.foldl_push (circ_init bcache0.link Node.head) hnd
  rw [List.foldl_map] at hfold
  simpa [Bio.binit, Lru.binit, List.map_reverse] using hfold

end Xv6.Bio
