import Xv6.Lib.Fallible
import Xv6.Bio.Lru
import Xv6.Log.Basic

/-!
# The log's buffers

What the log does to the buffer cache. `log_write` pins a buffer it records
for the first time (`bpin`), so that `bget` cannot recycle it before the
commit; `install_trans` copies each logged block from its log slot to its home
block and drops that pin (`bunpin`). The same `install_trans` runs at boot,
in `recover_from_log`, after `read_head` has loaded a header from the disk;
no `log_write` pinned those blocks.

Every function here is the cache side of its `log.c` namesake: the reads and
releases it makes, in order. The block contents, the disk writes and the data
`read_head` copies are in `Xv6.Log.Crash`; here the header `read_head` finds is
an argument. The functions take the cache's calls as a parameter (`CacheOps`):
at `bcacheOps` they run on the pointer model of `bio.c`, at `lruOps` on its
list reading, and `CacheOps.Sim` carries `Refines` from one to the other
through every function (`recover_from_log_sim`), which is how a concrete boot
is evaluated.

`recover_from_log_unpinned` is a boot after a crash that left one committed
block: recovery's `bunpin` takes a pin nobody added, and the `uint` reference
count of the home block's buffer wraps to `2^32 - 1`.
-/

namespace Xv6.Log

open Bio

/-- The buffer-cache calls the log makes. -/
structure CacheOps (σ : Type) where
  bread : σ → Nat → Nat → Option (Fin NBUF × σ)
  brelse : σ → Fin NBUF → σ
  bunpin : σ → Fin NBUF → σ

/-- The calls of `bio.c`. -/
def bcacheOps : CacheOps BCache := ⟨Bio.bread, Bio.brelse, Bio.bunpin⟩

/-- The same calls on the list reading of the cache. -/
def lruOps : CacheOps Lru := ⟨Lru.bread, Lru.brelse, Lru.bunpin⟩

variable {σ : Type} (ops : CacheOps σ)

/-- `bread`, with the panic of `bget` when no buffer is free. -/
def breadE (c : σ) (dev blockno : Nat) : Except String (Fin NBUF × σ) :=
  (ops.bread c dev blockno).elim (.error "bget: no buffers") .ok

/-- One pass of `install_trans`'s loop: read the log block and the home block,
write the home block (to the disk: the cache is unchanged), unpin it, and
release both. -/
def installBlock (dev lblock dblock : Nat) (c : σ) : Except String σ := do
  let (lbuf, c) ← breadE ops c dev lblock
  let (dbuf, c) ← breadE ops c dev dblock
  pure (ops.brelse (ops.brelse (ops.bunpin c dbuf) lbuf) dbuf)

/-- `install_trans`: one pass for each slot `tail < lh.n`, from log block
`start + tail + 1` to block `lh.block[tail]`. -/
def install_trans (c : σ) (l : Log) : Except String σ :=
  (List.range l.lh.n).foldlM
    (fun c tail => installBlock ops l.dev (l.start + tail + 1) (l.lh.block tail) c) c

/-- `read_head`: read the header block and copy the header `hdr` it holds into
memory, `n` and the first `n` slots. -/
def read_head (c : σ) (l : Log) (hdr : LogHeader) : Except String (σ × Log) := do
  let (buf, c) ← breadE ops c l.dev l.start
  pure (ops.brelse c buf, { l with lh := hdr.copyInto l.lh })

/-- `write_head`: read the header block, write it (to the disk), release it. -/
def write_head (c : σ) (l : Log) : Except String σ := do
  let (buf, c) ← breadE ops c l.dev l.start
  pure (ops.brelse c buf)

/-- `recover_from_log`: load the header, install what it names, then clear it. -/
def recover_from_log (c : σ) (l : Log) (hdr : LogHeader) : Except String (σ × Log) := do
  let (c, l) ← read_head ops c l hdr
  let c ← install_trans ops c l
  let l := { l with lh := { l.lh with n := 0 } }
  let c ← write_head ops c l
  pure (c, l)

/-- `fsinit` as the cache sees it: `readsb` reads and releases block 1, then
`initlog` takes the log's place from the superblock and recovers. -/
def fsinit (c : σ) (dev logstart nlog : Nat) (hdr : LogHeader) : Except String (σ × Log) := do
  let (bp, c) ← breadE ops c dev 1
  recover_from_log ops (ops.brelse c bp) ⟨logstart, nlog, 0, false, dev, ⟨0, fun _ => 0⟩⟩ hdr

/-! ## Simulation -/

/-- Two implementations of the calls that agree along `R`: the same buffer
from `bread`, and `R` kept by every call. -/
structure CacheOps.Sim {τ : Type} (R : σ → τ → Prop) (ops₁ : CacheOps σ) (ops₂ : CacheOps τ) :
    Prop where
  bread : ∀ c a dev blockno, R c a →
    Option.Rel (fun p q => p.1 = q.1 ∧ R p.2 q.2) (ops₁.bread c dev blockno) (ops₂.bread a dev blockno)
  brelse : ∀ c a b, R c a → R (ops₁.brelse c b) (ops₂.brelse a b)
  bunpin : ∀ c a b, R c a → R (ops₁.bunpin c b) (ops₂.bunpin a b)

/-- The pointer model and its list reading make the same calls. -/
theorem refines_sim : CacheOps.Sim Refines bcacheOps lruOps where
  bread := fun _ _ dev blockno h => h.bread dev blockno
  brelse := fun _ _ b h => h.brelse b
  bunpin := fun _ _ b h => h.bunpin b

section Sim

variable {τ : Type} {R : σ → τ → Prop} {ops₁ : CacheOps σ} {ops₂ : CacheOps τ}
  {c : σ} {a : τ}

/-- Related buffers and caches after a read. -/
abbrev SameBuf (R : σ → τ → Prop) (p : Fin NBUF × σ) (q : Fin NBUF × τ) : Prop :=
  p.1 = q.1 ∧ R p.2 q.2

theorem breadE_sim (hs : CacheOps.Sim R ops₁ ops₂) (h : R c a) (dev blockno : Nat) :
    Except.Rel (SameBuf R) (breadE ops₁ c dev blockno) (breadE ops₂ a dev blockno) :=
  (hs.bread c a dev blockno h).elim_error _

theorem installBlock_sim (hs : CacheOps.Sim R ops₁ ops₂) (h : R c a) (dev lblock dblock : Nat) :
    Except.Rel R (installBlock ops₁ dev lblock dblock c) (installBlock ops₂ dev lblock dblock a) := by
  refine (breadE_sim hs h dev lblock).bind fun ⟨lbuf, c₁⟩ ⟨lbuf', a₁⟩ ⟨hl, h₁⟩ => ?_
  refine (breadE_sim hs h₁ dev dblock).bind fun ⟨dbuf, c₂⟩ ⟨dbuf', a₂⟩ ⟨hd, h₂⟩ => ?_
  dsimp only at hl hd ⊢
  subst hl hd
  exact .pure (hs.brelse _ _ _ (hs.brelse _ _ _ (hs.bunpin _ _ _ h₂)))

theorem install_trans_sim (hs : CacheOps.Sim R ops₁ ops₂) (h : R c a) (l : Log) :
    Except.Rel R (install_trans ops₁ c l) (install_trans ops₂ a l) := by
  unfold install_trans
  exact Except.Rel.foldlM
    (fun _ _ tail hr => installBlock_sim hs hr l.dev (l.start + tail + 1) (l.lh.block tail)) _ h

theorem read_head_sim (hs : CacheOps.Sim R ops₁ ops₂) (h : R c a) (l : Log) (hdr : LogHeader) :
    Except.Rel (fun p q => R p.1 q.1 ∧ p.2 = q.2) (read_head ops₁ c l hdr) (read_head ops₂ a l hdr) := by
  refine (breadE_sim hs h l.dev l.start).bind fun ⟨buf, c₁⟩ ⟨buf', a₁⟩ ⟨hb, h₁⟩ => ?_
  dsimp only at hb ⊢
  subst hb
  exact .pure ⟨hs.brelse _ _ _ h₁, rfl⟩

theorem write_head_sim (hs : CacheOps.Sim R ops₁ ops₂) (h : R c a) (l : Log) :
    Except.Rel R (write_head ops₁ c l) (write_head ops₂ a l) := by
  refine (breadE_sim hs h l.dev l.start).bind fun ⟨buf, c₁⟩ ⟨buf', a₁⟩ ⟨hb, h₁⟩ => ?_
  dsimp only at hb ⊢
  subst hb
  exact .pure (hs.brelse _ _ _ h₁)

theorem recover_from_log_sim (hs : CacheOps.Sim R ops₁ ops₂) (h : R c a) (l : Log)
    (hdr : LogHeader) :
    Except.Rel (fun p q => R p.1 q.1 ∧ p.2 = q.2) (recover_from_log ops₁ c l hdr)
      (recover_from_log ops₂ a l hdr) := by
  refine (read_head_sim hs h l hdr).bind fun ⟨c₁, l₁⟩ ⟨a₁, l₁'⟩ ⟨h₁, hl⟩ => ?_
  dsimp only at hl ⊢
  subst hl
  refine (install_trans_sim hs h₁ l₁).bind fun c₂ a₂ h₂ => ?_
  refine (write_head_sim hs h₂ _).bind fun c₃ a₃ h₃ => ?_
  exact .pure ⟨h₃, rfl⟩

theorem fsinit_sim (hs : CacheOps.Sim R ops₁ ops₂) (h : R c a) (dev logstart nlog : Nat)
    (hdr : LogHeader) :
    Except.Rel (fun p q => R p.1 q.1 ∧ p.2 = q.2) (fsinit ops₁ c dev logstart nlog hdr)
      (fsinit ops₂ a dev logstart nlog hdr) := by
  refine (breadE_sim hs h dev 1).bind fun ⟨bp, c₁⟩ ⟨bp', a₁⟩ ⟨hb, h₁⟩ => ?_
  dsimp only at hb ⊢
  subst hb
  exact recover_from_log_sim hs (hs.brelse _ _ _ h₁) _ hdr

end Sim

/-! ## Recovery at boot -/

/-- A boot whose disk holds a committed header naming one block, block 40, as a
crash between `commit`'s two `write_head`s leaves it. Recovery's `bunpin` takes
a pin no `log_write` added, and buffer 3, which holds block 40, is left with
`refcnt = 2^32 - 1`. The next `bget` of block 40 wraps the count to 0, so a
`bget` of block 41 recycles buffer 3 while the first caller still holds it. -/
theorem recover_from_log_unpinned :
    ∃ c l, fsinit bcacheOps Bio.binit ROOTDEV 2 LOGSIZE ⟨1, fun _ => 40⟩ = .ok (c, l) ∧
      (c.buf 3).refcnt = 4294967295 ∧
      ∃ c₁ c₂, Bio.bget c ROOTDEV 40 = some (3, c₁) ∧ (c₁.buf 3).refcnt = 0 ∧
        Bio.bget c₁ ROOTDEV 41 = some (3, c₂) := by
  -- the boot on the list model, evaluated
  have key : (match fsinit lruOps Lru.binit ROOTDEV 2 LOGSIZE ⟨1, fun _ => 40⟩ with
      | .ok (a, _) => decide ((a.buf 3).refcnt = 4294967295) &&
          match a.bget ROOTDEV 40 with
          | some (b, a₁) => decide (b = 3 ∧ (a₁.buf 3).refcnt = 0) &&
              (a₁.bget ROOTDEV 41).map Prod.fst == some 3
          | none => false
      | .error _ => false) = true := by
    decide
  -- and carried to the pointer model
  have hsim := fsinit_sim refines_sim refines_binit ROOTDEV 2 LOGSIZE ⟨1, fun _ => 40⟩
  split at key
  next a l ha =>
    rw [ha] at hsim
    obtain ⟨⟨c, l'⟩, hc, href, rfl⟩ := hsim.ok_right
    simp only [Bool.and_eq_true, decide_eq_true_eq] at key
    obtain ⟨h3, key⟩ := key
    split at key
    next b a₁ hb =>
      simp only [Bool.and_eq_true, decide_eq_true_eq, beq_iff_eq] at key
      obtain ⟨⟨rfl, h₁⟩, key⟩ := key
      obtain ⟨⟨b', a₂⟩, hb', rfl⟩ := Option.map_eq_some_iff.mp key
      obtain ⟨⟨b₁, c₁⟩, hc₁, rfl, href₁⟩ := (hb ▸ href.bget ROOTDEV 40).some_right
      obtain ⟨⟨b₂, c₂⟩, hc₂, rfl, -⟩ := (hb' ▸ href₁.bget ROOTDEV 41).some_right
      exact ⟨c, _, hc, by rw [href.buf]; exact h3, c₁, c₂, hc₁, by rw [href₁.buf]; exact h₁, hc₂⟩
    next => cases key
  next => cases key

end Xv6.Log
