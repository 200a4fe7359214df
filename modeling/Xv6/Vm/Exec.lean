import Xv6.Vm.PageTable

/-!
# Loading a program

`loaduvm` and the part of part1's `exec` that builds the new address space. The file
is given by what `readi` stores for each offset and length; every length that is
asked for is positive, so a call that fails is one that stores too little.
-/

namespace Xv6.Vm

variable (L : Link)

abbrev MAXARG : ℕ := 32
abbrev ELF_MAGIC : ℕ := 0x464C457F
abbrev ELF_PROG_LOAD : ℕ := 1

/-- An executable file. -/
structure Image where
  readi : ℕ → ℕ → List Byte

/-- The little-endian number of `k` bytes at offset `off` of a structure. -/
def field (bytes : List Byte) (off k : ℕ) : ℕ :=
  Bytes.getLE (fun j : Fin bytes.length => bytes.get j) off k

structure ElfHdr where
  magic : ℕ
  entry : ℕ
  phoff : ℕ
  phnum : ℕ

def ElfHdr.size : ℕ := 52

def ElfHdr.decode (bytes : List Byte) : ElfHdr where
  magic := field bytes 0 4
  entry := field bytes 24 4
  phoff := field bytes 28 4
  phnum := field bytes 44 2

structure ProgHdr where
  type : ℕ
  off : ℕ
  vaddr : ℕ
  filesz : ℕ
  memsz : ℕ

def ProgHdr.size : ℕ := 32

def ProgHdr.decode (bytes : List Byte) : ProgHdr where
  type := field bytes 0 4
  off := field bytes 4 4
  vaddr := field bytes 8 4
  filesz := field bytes 16 4
  memsz := field bytes 20 4

variable (img : Image)

/-- The loop of `loaduvm`. Whether the page is present is not looked at. -/
def loadLoop (pgdir addr offset sz i : ℕ) : MemProg Bool :=
  if i < sz then do
    match ← walkpgdir pgdir (addr + i) false with
    | none => throw .loaduvmAddress
    | some (pgtab, j) =>
        let pa := pteAddr ((← get).entry pgtab j)
        let n := min (sz - i) PGSIZE
        let bytes := (img.readi ((offset + i) % 2 ^ 32) n).take n
        modify fun m => m.fill pa (Bytes.move (m.page pa) 0 bytes.length fun k => bytes.getD k 0)
        if bytes.length = n then loadLoop pgdir addr offset sz (i + PGSIZE)
        else return false
  else return true
termination_by sz - i
decreasing_by simp only [PGSIZE]; omega

/-- Returns false for -1. -/
def loaduvm (pgdir addr offset sz : ℕ) : MemProg Bool := do
  if addr % PGSIZE ≠ 0 then
    throw .loaduvmAligned
  loadLoop img pgdir addr offset sz 0

/-- The loop of `exec` over the `n` program headers from `off` on; none is `goto bad`. -/
def loadSegments (pgdir : ℕ) : ℕ → ℕ → ℕ → MemProg (Option ℕ)
  | 0, _, sz => return some sz
  | n + 1, off, sz => do
      let bytes := img.readi off ProgHdr.size
      let ph := ProgHdr.decode bytes
      if bytes.length ≠ ProgHdr.size then return none
      else if ph.type ≠ ELF_PROG_LOAD then
        loadSegments pgdir n ((off + ProgHdr.size) % 2 ^ 32) sz
      else if ph.memsz < ph.filesz then return none
      else if (ph.vaddr + ph.memsz) % 2 ^ 32 < ph.vaddr then return none
      else do
        let sz' ← allocuvm L pgdir sz ((ph.vaddr + ph.memsz) % 2 ^ 32)
        if sz' = 0 then return none
        else if ph.vaddr % PGSIZE ≠ 0 then return none
        else if ← loaduvm img pgdir ph.vaddr ph.off ph.filesz then
          loadSegments pgdir n ((off + ProgHdr.size) % 2 ^ 32) sz'
        else return none

/-- Push the argument strings; `ustack` collects where they are. -/
def pushArgs (pgdir : ℕ) : List (List Byte) → ℕ → List ℕ → MemProg (Option (ℕ × List ℕ))
  | [], sp, ustack => return some (sp, ustack)
  | arg :: rest, sp, ustack => do
      if MAXARG ≤ ustack.length then return none
      else
        let sp' := (sp + 2 ^ 32 - (arg.length + 1) % 2 ^ 32) % 2 ^ 32 / 4 * 4
        if ← copyout pgdir sp' (arg ++ [0]) then pushArgs pgdir rest sp' (ustack ++ [sp'])
        else return none

/-- The bytes of an array of `uint`. -/
def wordBytes (words : List ℕ) : List Byte :=
  words.flatMap fun w => (List.range 4).map fun i => BitVec.ofNat 8 (w / 256 ^ i)

/-- The rest of the stack: a fake return PC, `argc`, `argv` and the array it points to. -/
def pushStack (pgdir sp : ℕ) (args : List ℕ) : MemProg (Option ℕ) := do
  let argc := args.length
  let ustack := [0xffffffff, argc, (sp + 2 ^ 32 - (argc + 1) * 4) % 2 ^ 32] ++ args ++ [0]
  let sp' := (sp + 2 ^ 32 - (3 + argc + 1) * 4) % 2 ^ 32
  if ← copyout pgdir sp' (wordBytes ustack) then return some sp'
  else return none

/-- Two pages at the next page boundary: the first inaccessible, the second the user stack. -/
def makeStack (pgdir loaded : ℕ) : MemProg (Option ℕ) := do
  let base := PGROUNDUP loaded
  let sz ← allocuvm L pgdir base (base + 2 * PGSIZE)
  if sz = 0 then return none
  else do
    clearpteu pgdir (sz - 2 * PGSIZE)
    return some sz

/-- The argument strings, `argc`, `argv` and the array it points to. -/
def copyArgs (pgdir sz : ℕ) (argv : List (List Byte)) : MemProg (Option ℕ) := do
  match ← pushArgs pgdir argv sz [] with
  | none => return none
  | some (sp, args) => pushStack pgdir sp args

/-- The new address space is filled: its size and the stack pointer, or `goto bad`. -/
def fillSpace (pgdir : ℕ) (elf : ElfHdr) (argv : List (List Byte)) : MemProg (Option (ℕ × ℕ)) := do
  match ← loadSegments L img pgdir elf.phnum elf.phoff PGSIZE with
  | none => return none
  | some loaded =>
      match ← makeStack L pgdir loaded with
      | none => return none
      | some sz =>
          match ← copyArgs pgdir sz argv with
          | none => return none
          | some sp => return some (sz, sp)

/-- `exec` up to its commit: the new page directory, its size and the stack pointer. -/
def execImage (argv : List (List Byte)) : MemProg (Option (ℕ × ℕ × ℕ)) := do
  let bytes := img.readi 0 ElfHdr.size
  let elf := ElfHdr.decode bytes
  if bytes.length ≠ ElfHdr.size then return none
  else if elf.magic ≠ ELF_MAGIC then return none
  else do
    match ← setupkvm L with
    | none => return none
    | some pgdir =>
        match ← fillSpace L img pgdir elf argv with
        | none => do
            freevm L pgdir
            return none
        | some (sz, sp) => return some (pgdir, sz, sp)

end Xv6.Vm
