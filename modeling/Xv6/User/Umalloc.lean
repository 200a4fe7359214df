import Xv6.Lib.Program
import Xv6.Param

/-!
# The user allocator

`free`, `morecore` and `malloc` of part2's `umalloc.c`. Addresses and sizes are numbers below `2 ^
32`, and every sum is reduced as the machine does. Memory is the header at each address; an access
to a field whose page is not mapped stops the process.

`sbrk` and the mapping belong to the kernel, whose state is `σ`. A process that no longer has its
own text and stack does not return from a system call.
-/

namespace Xv6.User

/-- `union header` -/
@[ext]
structure Header where
  ptr : ℕ
  size : ℕ
  deriving DecidableEq

/-- `sizeof(Header)` -/
abbrev HEADER : ℕ := 8

/-- The value of `-1` as an address or an unsigned number. -/
abbrev MINUS_ONE : ℕ := 2 ^ 32 - 1

/-- `p + n` for a `Header *`. -/
def plus (p n : ℕ) : ℕ := (p + HEADER * n) % 2 ^ 32

structure Os (σ : Type) where
  /-- What the system call `sbrk` returns, if the process survives it. -/
  sbrk : ℕ → σ → Option (ℕ × σ)
  /-- The process can access the word at an address. -/
  mapped : σ → ℕ → Bool

structure Heap (σ : Type) where
  header : ℕ → Header
  freep : ℕ
  os : σ

inductive Stop where
  | fault
  /-- A loop has not ended within its fuel. -/
  | diverges
  deriving DecidableEq

section Umalloc

variable {σ : Type}

abbrev HeapM (σ α : Type) := Prog (Heap σ) Stop α

variable (os : Os σ)

/-- Access the word at `a`. -/
def access (a : ℕ) : HeapM σ Unit := do
  if os.mapped (← get).os a = false then throw .fault

/-- `p->s.ptr` -/
def ptr (p : ℕ) : HeapM σ ℕ := do
  access os p
  return ((← get).header p).ptr

/-- `p->s.size` -/
def size (p : ℕ) : HeapM σ ℕ := do
  access os (p + 4)
  return ((← get).header p).size

/-- `p->s.ptr = v` -/
def setPtr (p v : ℕ) : HeapM σ Unit := do
  access os p
  modify fun s => { s with header := Function.update s.header p { s.header p with ptr := v } }

/-- `p->s.size = v` -/
def setSize (p v : ℕ) : HeapM σ Unit := do
  access os (p + 4)
  modify fun s => { s with header := Function.update s.header p { s.header p with size := v } }

def setFreep (p : ℕ) : HeapM σ Unit := modify fun s => { s with freep := p }

def sbrk (n : ℕ) : HeapM σ ℕ := fun s =>
  match os.sbrk n s.os with
  | none => .error .fault
  | some (r, os') => .ok (r, { s with os := os' })

/-- The loop of `free`, at `p`. -/
def search (bp : ℕ) : ℕ → ℕ → HeapM σ ℕ
  | 0, _ => throw .diverges
  | fuel + 1, p => do
      let next ← ptr os p
      if p < bp ∧ bp < next then return p
      else if next ≤ p ∧ (p < bp ∨ bp < next) then return p
      else search bp fuel next

/-- `free`, with so much fuel for its loop. -/
def free (fuel ap : ℕ) : HeapM σ Unit := do
  let bp := (ap + (2 ^ 32 - HEADER)) % 2 ^ 32
  let p ← search os bp fuel (← get).freep
  if plus bp (← size os bp) = (← ptr os p) then
    setSize os bp (((← size os bp) + (← size os (← ptr os p))) % 2 ^ 32)
    setPtr os bp (← ptr os (← ptr os p))
  else setPtr os bp (← ptr os p)
  if plus p (← size os p) = bp then
    setSize os p (((← size os p) + (← size os bp)) % 2 ^ 32)
    setPtr os p (← ptr os bp)
  else setPtr os p bp
  setFreep p

def morecore (fuel nu : ℕ) : HeapM σ ℕ := do
  let nu := if nu < 4096 then 4096 else nu
  let hp ← sbrk os (nu * HEADER % 2 ^ 32)
  if hp = MINUS_ONE then return 0
  else do
    setSize os hp nu
    free os fuel (plus hp 1)
    return (← get).freep

/-- The loop of `malloc`, at `prevp` and `p`, with as much fuel for each call of `free`. -/
def mallocLoop (inner nunits : ℕ) : ℕ → ℕ → ℕ → HeapM σ ℕ
  | 0, _, _ => throw .diverges
  | fuel + 1, prevp, p => do
      let found ← size os p
      if nunits ≤ found then
        if found = nunits then
          setPtr os prevp (← ptr os p)
          setFreep prevp
          return plus p 1
        else
          setSize os p (found - nunits)
          let p := plus p (found - nunits)
          setSize os p nunits
          setFreep prevp
          return plus p 1
      else if p = (← get).freep then
        let p ← morecore os inner nunits
        if p = 0 then return 0
        else mallocLoop inner nunits fuel p (← ptr os p)
      else mallocLoop inner nunits fuel p (← ptr os p)

/-- `nunits` -/
def units (nbytes : ℕ) : ℕ := (nbytes + HEADER - 1) % 2 ^ 32 / HEADER + 1

/-- `malloc`, where `base` is the address of the variable `base`. -/
def malloc (base fuel : ℕ) (nbytes : Word) : HeapM σ ℕ := do
  let nunits := units nbytes.toNat
  if (← get).freep = 0 then
    setPtr os base base
    setFreep base
    setSize os base 0
  let prevp := (← get).freep
  mallocLoop os fuel nunits fuel prevp (← ptr os prevp)

end Umalloc

end Xv6.User
