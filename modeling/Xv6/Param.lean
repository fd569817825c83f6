import Mathlib

/-!
# Kernel parameters

The constants of `kernel/param.h` that the modelled subsystems read. They are
plain definitions, so that statements mention them by name and `decide`
evaluates them.
-/

namespace Xv6

/-- Maximum number of processes. -/
def NPROC : Nat := 64

/-- Process slots are numbered from `0`, so numerals name them. -/
instance : NeZero NPROC := ⟨by decide⟩

/-- Open files per process. -/
def NOFILE : Nat := 16

/-- Open files per system. -/
def NFILE : Nat := 100

/-- Device number of the file-system root disk. -/
def ROOTDEV : Nat := 0

/-- Maximum number of blocks any file-system operation writes. -/
def MAXOPBLOCKS : Nat := 10

/-- Maximum number of data blocks in the on-disk log. -/
def LOGSIZE : Nat := MAXOPBLOCKS * 3

/-- Size of the disk block cache. -/
def NBUF : Nat := MAXOPBLOCKS * 3

/-- Buffers are numbered from `0`, so numerals name them. -/
instance : NeZero NBUF := ⟨by decide⟩

/-- Number of disks, each with its own log. -/
def NDISK : Nat := 2

/-- Size of the file system in blocks. -/
def FSSIZE : Nat := 2000

/-- Number of priority levels. -/
def NPRIO : Nat := 10

/-- Priority of a freshly allocated process. -/
def DEF_PRIO : Nat := 5

end Xv6
