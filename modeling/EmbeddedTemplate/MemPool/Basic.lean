import EmbeddedTemplate.Lib.ByteMem
import EmbeddedTemplate.Lib.Region
import EmbeddedTemplate.Lib.Transition

/-! The first-fit memory pool of `mem_pool.c`. Segment headers live in the managed
memory itself, so they are loaded from and stored to byte memory. `none` is a call that
never returns: a failed `ASSERT` spins, and a walk along `next` can meet a cycle. -/
namespace EmbeddedTemplate.MemPool

open ByteMem

/-- How a target lays out `struct mem_pool_segment`: the pointer `next` comes first,
the 16-bit `size` follows at `sizeOff`. -/
structure Layout where
  ptrBytes : ℕ
  sizeOff : ℕ
  sizeof : ℕ
  allignSize : ℕ
  ptr_pos : 0 < ptrBytes
  ptr_le : ptrBytes ≤ sizeOff
  sizeOff_le : sizeOff + 2 ≤ sizeof
  allign_pos : 0 < allignSize

namespace Layout

def lp64 : Layout := ⟨8, 8, 16, 4, by decide, by decide, by decide, by decide⟩

def ilp32 : Layout := ⟨4, 4, 8, 4, by decide, by decide, by decide, by decide⟩

variable (L : Layout)

/-- `ALLIGN_SIZEOF(struct mem_pool_segment)`. -/
def allignSizeof : ℕ := (L.sizeof + L.allignSize - 1) / L.allignSize * L.allignSize

def space : ℕ := 256 ^ L.ptrBytes

def addr (n : ℤ) : ℕ := (n % L.space).toNat

/-- `MEM_POOL_POISON` as a pointer. -/
def poison : ℕ := 0xEFCDAB89 % L.space

def next (m : Mem) (seg : ℕ) : ℕ := load m L.ptrBytes seg
def size (m : Mem) (seg : ℕ) : ℕ := load m 2 (seg + L.sizeOff)
def setNext (m : Mem) (seg v : ℕ) : Mem := store m L.ptrBytes seg v
def setSize (m : Mem) (seg v : ℕ) : Mem := store m 2 (seg + L.sizeOff) v

def tryCombineWithNext (m : Mem) (seg : ℕ) : Option Mem :=
  let next := L.next m seg
  if next = 0 then some m
  else if L.addr (L.size m seg + seg) = next then
    let m := L.setNext m seg (L.next m next)
    some (L.setSize m seg (L.size m seg + L.size m next))
  else if L.addr (L.size m seg + seg) < next then some m
  else none

/-- The `for (;;)` of `add_segment`, with the node `pre` to insert after. -/
def addSegmentLoop (pool seg : ℕ) : ℕ → ℕ → Mem → Option (ℕ × Mem)
  | 0, _, _ => none
  | fuel + 1, pre, m =>
    let cur := L.next m pre
    if cur = 0 then do
      let m ← L.tryCombineWithNext (L.setNext m pre seg) pre
      some (pool, m)
    else if seg < cur then do
      let m ← L.tryCombineWithNext (L.setNext m seg cur) seg
      let m ← L.tryCombineWithNext (L.setNext m pre seg) pre
      some (pool, m)
    else addSegmentLoop pool seg fuel cur m

/-- A walk that is longer than the address space never ends. -/
def addSegment (m : Mem) (pool seg : ℕ) : Option (ℕ × Mem) :=
  if pool = 0 then some (seg, L.setNext m seg 0)
  else if seg < pool then do
    let m ← L.tryCombineWithNext (L.setNext m seg pool) seg
    some (seg, m)
  else L.addSegmentLoop pool seg (L.space + 1) pool m

/-- `none` is the return value 0; otherwise the pointer stored through `left`. -/
def splite (m : Mem) (seg size : ℕ) : Option (ℕ × Mem) :=
  if L.size m seg < size then none
  else if size + 2 * L.allignSizeof < L.size m seg then
    let left := L.addr (seg + size)
    let m := L.setSize m left (L.size m seg - size)
    let m := L.setNext m left (L.next m seg)
    some (left, L.setSize m seg size)
  else some (0, m)

def addBuffer (m : Mem) (pool buffer size : ℕ) : Option (ℕ × Mem) :=
  L.addSegment (L.setSize m buffer size) pool buffer

/-- What `mem_pool_malloc` leaves behind: the block, `*pool` and the memory. -/
structure MallocResult where
  ret : ℕ
  pool : ℕ
  mem : Mem

/-- The `for (;;)` of `mem_pool_malloc`. -/
def mallocLoop (pool size : ℕ) : ℕ → ℕ → Mem → Option MallocResult
  | 0, _, _ => none
  | fuel + 1, cur, m =>
    if L.next m cur = 0 then some ⟨0, pool, m⟩
    else match L.splite m (L.next m cur) size with
      | some (n, m) =>
        let ret := L.next m cur
        let m := L.setNext m cur n
        some ⟨L.addr (ret + L.sizeof), pool, L.setNext m ret L.poison⟩
      | none => mallocLoop pool size fuel (L.next m cur) m

/-- `size += ALLIGN_SIZEOF(struct mem_pool_segment)` on a `uint16_t`. -/
def request (size : ℕ) : ℕ := (size + L.allignSizeof) % 2 ^ 16

def malloc (m : Mem) (pool size : ℕ) : Option MallocResult :=
  if pool = 0 then some ⟨0, pool, m⟩
  else match L.splite m pool (L.request size) with
    | some (n, m) => some ⟨L.addr (pool + L.sizeof), n, L.setNext m pool L.poison⟩
    | none => L.mallocLoop pool (L.request size) (L.space + 1) pool m

/-- The segment of a block handed out by `mem_pool_malloc`. -/
def segOf (mem : ℕ) : ℕ := L.addr ((mem : ℤ) - L.sizeof)

def free (m : Mem) (pool mem : ℕ) : Option (ℕ × Mem) :=
  if mem = 0 then some (pool, m)
  else if L.poison = L.next m (L.segOf mem) then L.addSegment m pool (L.segOf mem)
  else none

/-- The free list as a reader of the headers sees it. -/
def walk (m : Mem) : ℕ → ℕ → Option (List Region)
  | 0, _ => none
  | fuel + 1, p =>
    if p = 0 then some [] else (walk m fuel (L.next m p)).map (⟨p, L.size m p⟩ :: ·)

def freeList (m : Mem) (pool : ℕ) : Option (List Region) := L.walk m (L.space + 1) pool

/-- The loop of `mem_pool_get_free_size`. -/
def freeSizeLoop (m : Mem) : ℕ → ℕ → ℕ → Option ℕ
  | 0, _, _ => none
  | fuel + 1, pool, ret =>
    if pool = 0 then some ret
    else freeSizeLoop m fuel (L.next m pool) ((ret + L.size m pool) % 2 ^ 16)

def getFreeSize (m : Mem) (pool : ℕ) : Option ℕ := L.freeSizeLoop m (L.space + 1) pool 0

/-- The loop of `mem_pool_get_segment_count`. -/
def segmentCountLoop (m : Mem) : ℕ → ℕ → ℕ → Option ℕ
  | 0, _, _ => none
  | fuel + 1, pool, ret =>
    if pool = 0 then some ret else segmentCountLoop m fuel (L.next m pool) ((ret + 1) % 2 ^ 16)

def getSegmentCount (m : Mem) (pool : ℕ) : Option ℕ := L.segmentCountLoop m (L.space + 1) pool 0

end Layout

/-- The pool and, as ghost state, the buffers given to it and the live blocks. -/
structure State where
  mem : Mem
  pool : ℕ
  live : List ℕ
  buffers : List Region

def State.empty (mem : Mem) : State := ⟨mem, 0, [], []⟩

/-- Calls of the pool's clients, and a store of theirs to memory they own. -/
inductive Op where
  | addBuffer (buffer size : ℕ)
  | malloc (size : ℕ)
  | free (mem : ℕ)
  | write (a : ℕ) (b : UInt8)

variable (L : Layout)

def step (s : State) : Op → Option State
  | .addBuffer buffer size => do
    let (pool, mem) ← L.addBuffer s.mem s.pool buffer size
    some { s with mem, pool, buffers := ⟨buffer, size⟩ :: s.buffers }
  | .malloc size => do
    let r ← L.malloc s.mem s.pool size
    some { s with mem := r.mem, pool := r.pool,
                  live := if r.ret = 0 then s.live else r.ret :: s.live }
  | .free p => do
    let (pool, mem) ← L.free s.mem s.pool p
    some { s with mem, pool, live := s.live.erase p }
  | .write a b => some { s with mem := Function.update s.mem a b }

def blockOf (m : Mem) (p : ℕ) : Region := ⟨L.segOf p, L.size m (L.segOf p)⟩

def State.blocks (s : State) : List Region := s.live.map (blockOf L s.mem)

/-- The contract of the calls. Buffers are objects of the program: not at address 0,
inside the address space, disjoint, at least one header long, 65535 bytes at most in
total. Only live blocks are freed. Clients store to their blocks or outside the pool. -/
def Legal (s : State) : Op → Prop
  | .addBuffer buffer size =>
    buffer ≠ 0 ∧ buffer + size < L.space ∧ L.sizeof ≤ size ∧
      size + Region.total s.buffers < 2 ^ 16 ∧ ∀ b ∈ s.buffers, Region.Disjoint ⟨buffer, size⟩ b
  | .malloc size => size < 2 ^ 16
  | .free p => p ∈ s.live
  | .write a _ =>
    ¬ Region.Covers s.buffers a ∨
      ∃ p ∈ s.live, L.segOf p + L.sizeof ≤ a ∧ a < (blockOf L s.mem p).stop

instance (s : State) : DecidablePred (Legal L s)
  | .addBuffer _ _ => inferInstanceAs (Decidable (_ ∧ _ ∧ _ ∧ _ ∧ _))
  | .malloc _ => inferInstanceAs (Decidable (_ < _))
  | .free _ => inferInstanceAs (Decidable (_ ∈ _))
  | .write _ _ => inferInstanceAs (Decidable (_ ∨ _))

/-- The free list is null-terminated; its segments ascend, are disjoint and not
adjacent, each holds its header, lies inside the buffers and overlaps no live block. -/
def WellFormed (s : State) : Prop :=
  ∃ l ∈ L.freeList s.mem s.pool, Region.Spaced l ∧ (∀ r ∈ l, L.sizeof ≤ r.size) ∧
    (∀ r ∈ l, ∀ x ∈ List.range' r.addr r.size, Region.Covers s.buffers x) ∧
    ∀ r ∈ l, ∀ b ∈ s.blocks L, r.Disjoint b

instance (s : State) : Decidable (WellFormed L s) :=
  inferInstanceAs (Decidable (∃ _ ∈ L.freeList s.mem s.pool, _ ∧ _ ∧ _ ∧ _))

end EmbeddedTemplate.MemPool
