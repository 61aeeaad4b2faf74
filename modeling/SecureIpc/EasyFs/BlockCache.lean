import Mathlib.Data.List.Dedup
import Mathlib.Data.List.Forall2
import Mathlib.Data.List.Perm.Subperm
import Mathlib.Logic.Function.Basic
import SecureIpc.Lib.Refinement

/-! The block cache of easy-fs: reference-counted copies of blocks, written back when they are dropped. -/

namespace SecureIpc.EasyFs
open Lib

abbrev Block := List UInt8

def blockSz : Nat := 512

def blockCacheSize : Nat := 16

inductive CacheFault where
  | outsideBlock
  | outOfBlockCache
  | dangling
  deriving DecidableEq, Repr

structure BlockCache where
  cache : Block
  blockId : Nat
  modified : Bool
  deriving DecidableEq, Repr

/-- The device, the caches in memory by address, the queue of the manager, and the clones of the
`Arc`s that callers hold. -/
structure CacheState where
  device : Nat → Block
  caches : Nat → Option BlockCache
  nextCache : Nat
  queue : List (Nat × Nat)
  handles : List Nat

abbrev CacheM := Program CacheState CacheFault

namespace BlockCache

def new (blockId : Nat) (device : Nat → Block) : BlockCache := { cache := device blockId, blockId, modified := false }

def read (self : BlockCache) (offset size : Nat) : Except CacheFault (List UInt8) :=
  if offset + size ≤ blockSz then .ok ((self.cache.drop offset).take size) else .error .outsideBlock

def modify (self : BlockCache) (offset size : Nat) (f : List UInt8 → List UInt8) : Except CacheFault BlockCache :=
  if offset + size ≤ blockSz then
    .ok { self with
      modified := true
      cache := self.cache.take offset ++ f ((self.cache.drop offset).take size) ++ self.cache.drop (offset + size) }
  else .error .outsideBlock

def sync (self : BlockCache) (device : Nat → Block) : BlockCache × (Nat → Block) :=
  if self.modified then ({ self with modified := false }, Function.update device self.blockId self.cache) else (self, device)

end BlockCache

def CacheState.strongCount (self : CacheState) (ref : Nat) : Nat :=
  self.queue.countP (fun pair => pair.2 == ref) + self.handles.count ref

def cacheAt (ref : Nat) : CacheM BlockCache := do
  match ← Program.read fun s : CacheState => s.caches ref with
  | none => throw .dangling
  | some cache => return cache

def syncCache (ref : Nat) : CacheM Unit := do
  let cache ← cacheAt ref
  modify fun s =>
    let (cache, device) := cache.sync s.device
    { s with device, caches := Function.update s.caches ref (some cache) }

/-- A reference has been given up; the last one drops the cache. -/
def dropRef (ref : Nat) : CacheM Unit := do
  if (← Program.read fun s : CacheState => s.strongCount ref) = 0 then
    syncCache ref
    modify fun s => { s with caches := Function.update s.caches ref none }
  else return ()

def getBlockCache (blockId : Nat) : CacheM Unit := do
  let s ← Program.read fun s : CacheState => s
  match s.queue.find? fun pair => pair.1 == blockId with
  | some (_, ref) => modify fun s => { s with handles := s.handles ++ [ref] }
  | none =>
    if s.queue.length = blockCacheSize then
      match s.queue.findIdx? fun pair => s.strongCount pair.2 == 1 with
      | some idx =>
        modify fun s => { s with queue := s.queue.eraseIdx idx }
        dropRef (s.queue.getD idx (0, 0)).2
      | none => throw .outOfBlockCache
    else pure ()
    modify fun s => { s with
      caches := Function.update s.caches s.nextCache (some (.new blockId s.device)), nextCache := s.nextCache + 1
      queue := s.queue ++ [(blockId, s.nextCache)], handles := s.handles ++ [s.nextCache] }

def syncEntries : List (Nat × Nat) → CacheM Unit
  | [] => pure ()
  | (_, ref) :: rest => do
    syncCache ref
    syncEntries rest

def blockCacheSyncAll : CacheM Unit := do
  syncEntries (← Program.read CacheState.queue)

/-- What a caller does; it names its handles by their position. -/
inductive CacheOp where
  | get (blockId : Nat)
  | read (handle offset size : Nat)
  | modify (handle offset size : Nat) (f : List UInt8 → List UInt8)
  | release (handle : Nat)
  | syncAll

def handleAt (handle : Nat) : CacheM Nat := do
  match ← Program.read fun s : CacheState => s.handles[handle]? with
  | none => throw .dangling
  | some ref => return ref

def execOp : CacheOp → CacheM (List UInt8)
  | .get blockId => do
    getBlockCache blockId
    return []
  | .read handle offset size => do
    let cache ← cacheAt (← handleAt handle)
    Program.lift (cache.read offset size)
  | .modify handle offset size f => do
    let ref ← handleAt handle
    let cache ← Program.lift ((← cacheAt ref).modify offset size f)
    modify fun s => { s with caches := Function.update s.caches ref (some cache) }
    return []
  | .release handle => do
    let ref ← handleAt handle
    modify fun s => { s with handles := s.handles.eraseIdx handle }
    dropRef ref
    return []
  | .syncAll => do
    blockCacheSyncAll
    return []

/-! ### What the cache is for -/

/-- The blocks as their users see them, and the blocks held. -/
structure Blocks where
  contents : Nat → Block
  held : List Nat

/-- Reads and modifications act on the contents of the block itself. -/
def Blocks.step (self : Blocks) : CacheOp → List UInt8 × Blocks
  | .get blockId => ([], { self with held := self.held ++ [blockId] })
  | .read handle offset size => (((self.contents (self.held.getD handle 0)).drop offset).take size, self)
  | .modify handle offset size f =>
    let blockId := self.held.getD handle 0
    let block := self.contents blockId
    ([], { self with
      contents := Function.update self.contents blockId
        (block.take offset ++ f ((block.drop offset).take size) ++ block.drop (offset + size)) })
  | .release handle => ([], { self with held := self.held.eraseIdx handle })
  | .syncAll => ([], self)

/-- Only held blocks are used, inside the block, and fewer than 16 blocks are held at any moment. -/
def Blocks.allowed (self : Blocks) (op : CacheOp) : Prop :=
  self.held.dedup.length < blockCacheSize ∧ (self.step op).2.held.dedup.length < blockCacheSize ∧
    match op with
    | .get _ | .syncAll => True
    | .read handle offset size | .modify handle offset size _ => handle < self.held.length ∧ offset + size ≤ blockSz
    | .release handle => handle < self.held.length

def blocks : Spec CacheOp (List UInt8) Blocks := ⟨Blocks.allowed, Blocks.step⟩

end SecureIpc.EasyFs
