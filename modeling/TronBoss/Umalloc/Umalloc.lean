import TronBoss.Lib.Bytes
import TronBoss.Lib.Hoare
import TronBoss.Lib.Walk

/-!
# The allocator of user programs

`umalloc.c`, over the memory of the process as bytes. A header is eight bytes, the pointer `ptr` and
the `size` in headers, and a pointer to a header counts in headers. The functions take the address
of the static header `base`. What `sbrk` answers is given from outside: `sbrks` are the answers to
come, and it is an assumption of the model that an answer is memory above the break, and that it
ends below the last address (a process has no memory from `KERNBASE` on). Memory that `sbrk` was not
asked for is mapped up to the end of the last page only; a store of `morecore` past it is a fault,
which kills the process.

A loop gets so many `turns`, as many as there are addresses; running out of them is `diverge`.
-/

namespace TronBoss.Umalloc

open Lib

/-- The memory of the process, the variable `freep`, the break, the memory obtained from `sbrk` so
far, and what `sbrk` answers next. -/
structure Heap where
  mem : Bytes (2 ^ 32)
  freep : Nat
  top : Nat
  areas : List (Nat × Nat)
  sbrks : List (Option Nat)

abbrev HeapM : Type → Type := Routine Heap

/-! ## Headers -/

/-- `p->s.ptr`. -/
def Heap.ptr (h : Heap) (p : Nat) : Nat := (h.mem.read32 p).toNat

/-- `p->s.size`. -/
def Heap.size (h : Heap) (p : Nat) : Nat := (h.mem.read32 (p + 4)).toNat

/-- `p->s.ptr = v`. -/
def Heap.setPtr (h : Heap) (p v : Nat) : Heap :=
  { h with mem := h.mem.write32 p (UInt32.ofNat v) }

/-- `p->s.size = v`. -/
def Heap.setSize (h : Heap) (p v : Nat) : Heap :=
  { h with mem := h.mem.write32 (p + 4) (UInt32.ofNat v) }

/-- `p + n`, for a pointer to a header. -/
def plus (p n : Nat) : Nat := (p + 8 * n) % 2 ^ 32

/-- `(Header*)ap - 1`. -/
def header (ap : Nat) : Nat := (ap + (2 ^ 32 - 8)) % 2 ^ 32

/-- The turns of a loop. -/
@[irreducible] def turns : Nat := 2 ^ 32

/-! ## `free` -/

/-- The loop of `free` stops at `p`, at its condition or at the `break`. -/
def Heap.stops (h : Heap) (bp p : Nat) : Bool :=
  (bp > p && bp < h.ptr p) || (p ≥ h.ptr p && (bp > p || bp < h.ptr p))

/-- The first `if` of `free`: the block and the one after it. -/
def Heap.joinNext (h : Heap) (bp p : Nat) : Heap :=
  if plus bp (h.size bp) = h.ptr p then
    let h := h.setSize bp (h.size bp + h.size (h.ptr p))
    h.setPtr bp (h.ptr (h.ptr p))
  else h.setPtr bp (h.ptr p)

/-- The second `if` of `free`: the block and the one before it. -/
def Heap.joinPrev (h : Heap) (bp p : Nat) : Heap :=
  if plus p (h.size p) = bp then
    let h := h.setSize p (h.size p + h.size bp)
    h.setPtr p (h.ptr bp)
  else h.setPtr p bp

def free (ap : Nat) : HeapM Unit := do
  let bp := header ap
  let h ← get
  let p ← terminating (seek h.ptr (h.stops bp) turns h.freep)
  modify fun h => { (h.joinNext bp p).joinPrev bp p with freep := p }

/-! ## `malloc` -/

/-- `sbrk`, which takes an `int`: -1 is `none`. -/
def sbrk (n : Int32) : HeapM (Option Nat) := do
  let n := n.toUInt32.toNat
  let h ← get
  match h.sbrks with
  | [] => return none
  | none :: sbrks =>
    set { h with sbrks := sbrks }
    return none
  | some p :: sbrks =>
    require (h.top ≤ p ∧ p + n < 2 ^ 32)
    set { h with sbrks := sbrks, top := p + n, areas := (p, n) :: h.areas }
    return some p

/-- The end of the last page of the process. -/
def Heap.mapped (h : Heap) : Nat := (h.top + 4095) / 4096 * 4096

/-- The headers that `morecore` gets, `if(nu < 4096) nu = 4096`. -/
def coreUnits (nu : Nat) : Nat := if nu < 4096 then 4096 else nu

/-- The argument of `sbrk` in `morecore`. -/
def sbrkArg (nu : Nat) : Int32 := .ofNat (coreUnits nu * 8)

def morecore (nu : Nat) : HeapM Nat := do
  match ← sbrk (sbrkArg nu) with
  | none => return 0
  | some hp =>
    if (← get).mapped < hp + 8 then throw .outOfBounds
    modify fun h => h.setSize hp (coreUnits nu)
    free (plus hp 1)
    return (← get).freep

/-- The two ways to take `nunits` headers from the block `p`. -/
def Heap.carve (h : Heap) (nunits prevp p : Nat) : Nat × Heap :=
  if h.size p = nunits then (p, h.setPtr prevp (h.ptr p))
  else
    let h := h.setSize p (h.size p - nunits)
    let q := plus p (h.size p)
    (q, h.setSize q nunits)

/-- The loop of `malloc`. -/
def mallocLoop (nunits : Nat) : Nat → Nat → Nat → HeapM Nat
  | 0, _, _ => throw .diverge
  | n + 1, prevp, p => do
    let h ← get
    if h.size p ≥ nunits then
      let (p, h) := h.carve nunits prevp p
      set { h with freep := prevp }
      return plus p 1
    else if p = h.freep then
      let p ← morecore nunits
      if p = 0 then return 0
      else mallocLoop nunits n p ((← get).ptr p)
    else mallocLoop nunits n p (h.ptr p)

/-- The number of headers for so many bytes. -/
def nunits (nbytes : UInt32) : Nat := (nbytes.toNat + (8 - 1)) % 2 ^ 32 / 8 + 1

/-- `base.s.ptr = freep = &base; base.s.size = 0`. -/
def Heap.init (base : Nat) (h : Heap) : Heap :=
  { (h.setPtr base base).setSize base 0 with freep := base }

def malloc (base : Nat) (nbytes : UInt32) : HeapM Nat := do
  if (← get).freep = 0 then modify (Heap.init base)
  let h ← get
  mallocLoop (nunits nbytes) turns h.freep (h.ptr h.freep)

/-! ## Programs -/

/-- A block: the address of its header, and its size in headers. -/
abbrev Block : Type := Nat × Nat

/-- The process, with the blocks it has from `malloc` and has not given to `free`. -/
structure State where
  heap : Heap
  live : List Block

/-- What a program does: the two calls, and a store of a byte. A call of `malloc` comes with what
`sbrk` answers during the call. -/
inductive Call where
  | malloc (nbytes : UInt32) (sbrks : List (Option Nat))
  | free (ap : Nat)
  | store (a : Nat) (v : UInt8)

/-- A call changes the heap. -/
def onHeap {α : Type} (m : HeapM α) : Routine State α :=
  zoom State.heap (fun s h => { s with heap := h }) m

/-- A program calls `malloc` with a number of bytes that leaves room for rounding up, calls `free`
with a pointer that is live, and stores into the blocks it has. -/
def Call.run (base : Nat) : Call → Routine State Unit
  | .malloc nbytes sbrks => do
    require (nbytes.toNat + (8 - 1) < 2 ^ 32)
    modify fun s => { s with heap := { s.heap with sbrks := sbrks } }
    let ap ← onHeap (Umalloc.malloc base nbytes)
    if ap ≠ 0 then modify fun s => { s with live := (header ap, nunits nbytes) :: s.live }
  | .free ap => do
    let s ← get
    match s.live.find? fun b => plus b.1 1 = ap with
    | none => throw .disabled
    | some b =>
      onHeap (Umalloc.free ap)
      modify fun s => { s with live := s.live.erase b }
  | .store a v => do
    let s ← get
    require (∃ b ∈ s.live, b.1 + 8 ≤ a ∧ a < b.1 + 8 * b.2)
    modify fun s => { s with heap := { s.heap with mem := s.heap.mem.write a [v] } }

/-- A process that has not called `malloc` yet. -/
def State.start (mem : Bytes (2 ^ 32)) (top : Nat) : State where
  heap := ⟨mem, 0, top, [], []⟩
  live := []

end TronBoss.Umalloc
