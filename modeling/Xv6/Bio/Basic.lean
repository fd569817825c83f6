import Xv6.Lib.Intrusive
import Xv6.Param

/-!
# The buffer cache

`kernel/bio.c` keeps `NBUF` buffers on one circular doubly-linked list through
`bcache.head`, most recently released first. `bget` looks a block up by a
forward scan from the head and, when the block is not cached, recycles the
least recently used unreferenced buffer, found by a backward scan; `brelse`
moves a buffer whose last reference is dropped to the front; `bpin` and
`bunpin` add and remove a reference without moving it.

The model keeps the fields of `struct buf` that the cache reads and writes
(`valid`, `dev`, `blockno`, and `refcnt` as the `uint` it is), and the link
words of the list as an `Intrusive.Mem` over the nodes `head` and `buf i`. The
two scans are `Intrusive.findNext` and `Intrusive.findPrev`, with one unit of
fuel per buffer and one for the head: exactly enough on a well-formed list
(`Intrusive.Circ.findNext_eq`). The block data, the `disk` flag and the
sleep-locks are not modelled.
-/

namespace Xv6.Bio

open Intrusive

/-- A node of the buffer list: `bcache.head` or one of the `NBUF` buffers. -/
inductive Node where
  | head
  | buf (i : Fin NBUF)
deriving DecidableEq, Repr

/-- The fields of `struct buf` the cache itself reads and writes. -/
structure Buf where
  valid : Bool
  dev : Nat
  blockno : Nat
  refcnt : UInt32
deriving DecidableEq, Repr

/-- `bcache`: the buffers and the link words of the list through `head`. -/
structure BCache where
  buf : Fin NBUF → Buf
  link : Mem Node

/-- Replace the fields of buffer `b`. -/
def BCache.setBuf (c : BCache) (b : Fin NBUF) (x : Buf) : BCache :=
  { c with buf := Function.update c.buf b x }

@[simp] theorem BCache.setBuf_buf_self (c : BCache) (b : Fin NBUF) (x : Buf) :
    (c.setBuf b x).buf b = x := by
  simp [BCache.setBuf]

@[simp] theorem BCache.setBuf_buf_of_ne (c : BCache) {b b' : Fin NBUF} (x : Buf) (h : b' ≠ b) :
    (c.setBuf b x).buf b' = c.buf b' := by
  simp [BCache.setBuf, h]

@[simp] theorem BCache.setBuf_link (c : BCache) (b : Fin NBUF) (x : Buf) :
    (c.setBuf b x).link = c.link := rfl

/-! ## Initialisation -/

/-- `bcache` as the kernel image leaves it, all zero. The link words of the
buffers are written by `binit` before anything reads them; here they point at
the head. -/
def bcache0 : BCache := ⟨fun _ => ⟨false, 0, 0, 0⟩, fun _ => ⟨.head, .head⟩⟩

/-- `binit`: the head points at itself, then every buffer, in array order, is
linked in right after the head. -/
def binit : BCache :=
  { bcache0 with
    link := (List.finRange NBUF).foldl (fun m i => push m .head (.buf i)) (init bcache0.link .head) }

/-! ## Lookup and release -/

/-- The forward scan's test: `b->dev == dev && b->blockno == blockno`. -/
def cached (c : BCache) (dev blockno : Nat) : Node → Bool
  | .head => false
  | .buf b => (c.buf b).dev == dev && (c.buf b).blockno == blockno

/-- The backward scan's test: `b->refcnt == 0`. -/
def unused (c : BCache) : Node → Bool
  | .head => false
  | .buf b => (c.buf b).refcnt == 0

/-- `bpin`: one more reference, `b->refcnt++`. -/
def bpin (c : BCache) (b : Fin NBUF) : BCache :=
  c.setBuf b { c.buf b with refcnt := (c.buf b).refcnt + 1 }

/-- `bunpin`: one reference less, `b->refcnt--`. -/
def bunpin (c : BCache) (b : Fin NBUF) : BCache :=
  c.setBuf b { c.buf b with refcnt := (c.buf b).refcnt - 1 }

/-- `bget`: the cached buffer of `(dev, blockno)` with one more reference, or
else the least recently used unreferenced buffer, recycled for the block with
`valid = 0` and `refcnt = 1`. `none` is the panic `bget: no buffers`. -/
def bget (c : BCache) (dev blockno : Nat) : Option (Fin NBUF × BCache) :=
  match findNext c.link .head (cached c dev blockno) (NBUF + 1) (c.link .head).next with
  -- the hit increments `refcnt` exactly as `bpin` does
  | some (.buf b) => some (b, bpin c b)
  | _ =>
    match findPrev c.link .head (unused c) (NBUF + 1) (c.link .head).prev with
    | some (.buf b) => some (b, c.setBuf b ⟨false, dev, blockno, 1⟩)
    | _ => none

/-- `bread`: `bget`, then the buffer is marked valid once the disk has filled it. -/
def bread (c : BCache) (dev blockno : Nat) : Option (Fin NBUF × BCache) :=
  (bget c dev blockno).map fun (b, c') =>
    (b, if (c'.buf b).valid then c' else c'.setBuf b { c'.buf b with valid := true })

/-- `brelse`'s unlink, `b->next->prev = b->prev` then `b->prev->next = b->next`:
the two writes of `Intrusive.remove` in the other order. -/
def brelseUnlink (m : Mem Node) (e : Node) : Mem Node :=
  let m₁ := setPrev m (m e).next (m e).prev
  setNext m₁ (m₁ e).prev (m₁ e).next

/-- `brelse`: drop one reference; when none is left, move the buffer to the
front of the list. -/
def brelse (c : BCache) (b : Fin NBUF) : BCache :=
  let c₁ := bunpin c b
  if (c₁.buf b).refcnt = 0 then
    { c₁ with link := push (brelseUnlink c₁.link (.buf b)) .head (.buf b) }
  else c₁

/-! ## Spec lemmas -/

/-- The two writes of an unlink go to different words, so their order does not
matter: `brelse` unlinks as `list.c`'s `lst_remove` does. -/
theorem brelseUnlink_eq_remove (m : Mem Node) (e : Node) : brelseUnlink m e = remove m e := by
  have hp : (setPrev m (m e).next (m e).prev e).prev = (m e).prev := by
    rw [setPrev_prev]; split_ifs <;> rfl
  funext x
  rw [remove_eq]
  simp only [brelseUnlink, hp, setPrev_next]
  ext
  · simp only [setNext_next, setPrev_next]
  · simp only [setNext_prev, setPrev_prev]

/-- `brelse`'s move to the front on a well-formed list: the buffer leaves its
place and comes back right after the head. -/
theorem circ_moveFront {m : Mem Node} {o₁ o₂ : List (Fin NBUF)} {b : Fin NBUF}
    (hc : Circ m .head ((o₁ ++ b :: o₂).map .buf)) :
    Circ (push (brelseUnlink m (.buf b)) .head (.buf b)) .head ((b :: (o₁ ++ o₂)).map .buf) := by
  simp only [List.map_append, List.map_cons] at hc
  -- the buffer is on the list once, so it is not among the others
  have hfresh : Node.buf b ∉ Node.head :: (o₁.map Node.buf ++ o₂.map Node.buf) := by
    have hnd := List.nodup_middle.mp (List.nodup_cons.mp hc.nodup).2
    have hne : Node.buf b ≠ Node.head := fun h => Node.noConfusion h
    simpa [hne] using (List.nodup_cons.mp hnd).1
  rw [brelseUnlink_eq_remove]
  simpa using circ_push (circ_remove hc) hfresh

@[simp] theorem bpin_link (c : BCache) (b : Fin NBUF) : (bpin c b).link = c.link := rfl

@[simp] theorem bunpin_link (c : BCache) (b : Fin NBUF) : (bunpin c b).link = c.link := rfl

@[simp] theorem cached_buf (c : BCache) (dev blockno : Nat) (b : Fin NBUF) :
    cached c dev blockno (.buf b) = ((c.buf b).dev == dev && (c.buf b).blockno == blockno) := rfl

@[simp] theorem unused_buf (c : BCache) (b : Fin NBUF) :
    unused c (.buf b) = ((c.buf b).refcnt == 0) := rfl

end Xv6.Bio
