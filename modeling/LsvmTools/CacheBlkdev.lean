import LsvmTools.Blkdev

/-! # The cache block device

Blocks are cached in hash chains. Reads take a block from the cache where it is
there; writes go to the cache while caching is enabled, and to the child while it
is not. -/
namespace LsvmTools.CacheBlkdev
open Lib.Program Lib.Sectors Blkdev
open Addr (nth)

def maxChains : Nat := 64 * 1024

structure Block where
  blkno : UInt64
  data : Sector

structure BlkdevImpl (σ : Type) where
  child : σ
  chains : Fin maxChains → List Block
  flags : UInt32
  /-- Whether the allocations to come succeed. -/
  heap : Nat → Bool

variable {σ : Type}

def slot (blkno : UInt64) : Fin maxChains := ⟨blkno.toNat % maxChains, Nat.mod_lt _ (by decide)⟩

/-- `BLKDEV_ENABLE_CACHING` is set. -/
def caching (impl : BlkdevImpl σ) : Bool := impl.flags &&& 1 != 0

/-- `_GetCache`. -/
def getCache (impl : BlkdevImpl σ) (blkno : UInt64) : Option Block :=
  (impl.chains (slot blkno)).find? fun p => p.blkno = blkno

def push (blkno : UInt64) (data : Sector) (impl : BlkdevImpl σ) : BlkdevImpl σ :=
  let chain := ⟨blkno, data⟩ :: impl.chains (slot blkno)
  { impl with chains := Function.update impl.chains (slot blkno) chain }

/-- `_PutCache`. -/
def putCache (blkno : UInt64) (data : Sector) : Prog (BlkdevImpl σ) Unit Unit := do
  let impl ← Prog.get
  Prog.modify fun impl => { impl with heap := fun i => impl.heap (i + 1) }
  if impl.heap 0 then Prog.modify (push blkno data) else Prog.throw ()

/-- The chain with the data of the first block of this number replaced. -/
def overwrite (blkno : UInt64) (data : Sector) : List Block → List Block
  | [] => []
  | p :: ps => if p.blkno = blkno then ⟨p.blkno, data⟩ :: ps else p :: overwrite blkno data ps

def setCached (blkno : UInt64) (data : Sector) (impl : BlkdevImpl σ) : BlkdevImpl σ :=
  let chain := overwrite blkno data (impl.chains (slot blkno))
  { impl with chains := Function.update impl.chains (slot blkno) chain }

/-- A call of the child. -/
def onChild {α : Type} (m : Prog σ Unit α) : Prog (BlkdevImpl σ) Unit α where
  exec impl := match m.run impl.child with
    | .ok a child => .ok a { impl with child }
    | .err e child => .err e { impl with child }
    | .stuck => .stuck

/-! ## Reading -/

/-- The run of cached blocks from the `i`-th on, among `rem` blocks. -/
def hits (impl : BlkdevImpl σ) (blkno : UInt64) : Nat → Nat → List Sector
  | _, 0 => []
  | i, rem + 1 =>
    match getCache impl (nth blkno i) with
    | some block => block.data :: hits impl blkno (i + 1) rem
    | none => []

/-- The length of the run of blocks that are not cached. -/
def misses (impl : BlkdevImpl σ) (blkno : UInt64) : Nat → Nat → Nat
  | _, 0 => 0
  | i, rem + 1 =>
    if (getCache impl (nth blkno i)).isSome then 0 else misses impl blkno (i + 1) rem + 1

/-- Put a run of blocks into the cache. -/
def cacheRun (blkno : UInt64) : Nat → List Sector → Prog (BlkdevImpl σ) Unit Unit
  | _, [] => pure ()
  | k, d :: ds => do
    putCache (nth blkno k) d
    cacheRun blkno (k + 1) ds

/-- Read a run of blocks that are not cached; if caching is enabled, cache them. -/
def readRun (child : Device UInt64 σ Sector) (blkno : UInt64) (j n : Nat) :
    Prog (BlkdevImpl σ) Unit (List Sector) :=
  if n = 0 then pure []
  else do
    let impl ← Prog.get
    let run ← onChild (child.getN (nth blkno j) n)
    if caching impl then do
      cacheRun blkno j run
      pure run
    else pure run

/-- The loop of `_GetN`. Every round but the last reads a block. -/
def getNLoop (child : Device UInt64 σ Sector) (blkno : UInt64) (nblocks : Nat) :
    Nat → Nat → Prog (BlkdevImpl σ) Unit (List Sector)
  | 0, i => if i < nblocks then Prog.stuck else pure []
  | fuel + 1, i =>
    if nblocks ≤ i then pure []
    else do
      let impl ← Prog.get
      let hit := hits impl blkno i (nblocks - i)
      let j := i + hit.length
      let n := misses impl blkno j (nblocks - j)
      let run ← readRun child blkno j n
      let rest ← getNLoop child blkno nblocks fuel (j + n)
      pure (hit ++ run ++ rest)

/-- `_GetN`. -/
def getN (child : Device UInt64 σ Sector) (blkno : UInt64) (nblocks : Nat) :
    Prog (BlkdevImpl σ) Unit (List Sector) :=
  getNLoop child blkno nblocks nblocks 0

/-! ## Writing -/

/-- The loop of `_PutN` over the cache. -/
def putNLoop (blkno : UInt64) : Nat → List Sector → Prog (BlkdevImpl σ) Unit Unit
  | _, [] => pure ()
  | k, d :: ds => do
    let impl ← Prog.get
    match getCache impl (nth blkno k) with
    | some _ => Prog.modify (setCached (nth blkno k) d)
    | none => putCache (nth blkno k) d
    putNLoop blkno (k + 1) ds

/-- `_PutN`. -/
def putN (child : Device UInt64 σ Sector) (blkno : UInt64) (data : List Sector) :
    Prog (BlkdevImpl σ) Unit Unit := do
  let impl ← Prog.get
  if caching impl then putNLoop blkno 0 data else onChild (child.putN blkno data)

/-- `_SetFlags`. -/
def setFlags (flags : UInt32) : Prog (BlkdevImpl σ) Unit Unit :=
  if flags &&& ~~~1 ≠ 0 then Prog.throw ()
  else Prog.modify fun impl => { impl with flags }

/-- `NewCacheBlkdev`. -/
def newCacheBlkdev (child : σ) (heap : Nat → Bool) : BlkdevImpl σ := ⟨child, fun _ => [], 0, heap⟩

def cacheBlkdev (child : Device UInt64 σ Sector) : Device UInt64 (BlkdevImpl σ) Sector :=
  ⟨getN child, putN child⟩

end LsvmTools.CacheBlkdev
