import Xv6.Fs.Block

/-!
# Inode contents

`iupdate`, `bmap`, `itrunc`, `readi` and `writei` of part2's `fs.c`, with the
checksums of `T_CHECKED` files: such a file keeps, in the top byte of each
block address, the exclusive-or of the bytes of the block.

A function that takes a `struct inode *` takes the fields and returns them. A
pointer to user memory is a function from offsets to bytes.
-/

namespace Xv6.Fs

abbrev T_DIR : Half := 1
abbrev T_FILE : Half := 2
abbrev T_DEV : Half := 3
abbrev T_CHECKED : Half := 4

/-- The fields of an inode that live on disk. -/
@[ext]
structure Dinode where
  type : Half
  major : Half
  minor : Half
  nlink : Half
  size : Word
  addrs : Fin (NDIRECT + 1) → Word
  deriving DecidableEq

/-- An inode in memory. -/
@[ext]
structure Inode extends Dinode where
  inum : ℕ
  deriving DecidableEq

/-- `ip->addrs[i]`. -/
def Dinode.addr (ip : Dinode) (i : ℕ) : Word := ip.addrs (Fin.ofNat (NDIRECT + 1) i)

/-- `ip->addrs[i] = a`. -/
def Inode.setAddr (ip : Inode) (i : ℕ) (a : Word) : Inode :=
  { ip with addrs := Function.update ip.addrs (Fin.ofNat (NDIRECT + 1) i) a }

/-- The dinode in slot `i` of an inode block. -/
def getDinode (b : Block) (i : ℕ) : Dinode where
  type := Bytes.getHalf b (64 * i)
  major := Bytes.getHalf b (64 * i + 2)
  minor := Bytes.getHalf b (64 * i + 4)
  nlink := Bytes.getHalf b (64 * i + 6)
  size := Bytes.getWord b (64 * i + 8)
  addrs := fun k => Bytes.getWord b (64 * i + 12 + 4 * k)

/-- Store a dinode in slot `i` of an inode block. -/
def putDinode (b : Block) (i : ℕ) (d : Dinode) : Block :=
  let b := Bytes.putHalf b (64 * i) d.type
  let b := Bytes.putHalf b (64 * i + 2) d.major
  let b := Bytes.putHalf b (64 * i + 4) d.minor
  let b := Bytes.putHalf b (64 * i + 6) d.nlink
  let b := Bytes.putWord b (64 * i + 8) d.size
  Bytes.putWords b (64 * i + 12) (List.ofFn d.addrs)

def iupdate (ip : Inode) : FsM Unit := do
  let b := (← get).sb.iblock ip.inum
  let data ← bread b
  logWrite b (putDinode data (ip.inum % IPB) ip.toDinode)
  brelse b

/-- The address in a slot of an inode of the given type. -/
def mask (type : Half) (addr : Word) : Word :=
  if type = T_CHECKED then 0x00ffffff &&& addr else addr

/-- `if((addr = ip->addrs[i]) == 0) ip->addrs[i] = addr = balloc(ip->dev)`. -/
def loadAddr (ip : Inode) (i : ℕ) : FsM (Word × Inode) := do
  if ip.addr i = 0 then
    let b ← balloc
    return (BitVec.ofNat 32 b, ip.setAddr i (BitVec.ofNat 32 b))
  else return (ip.addr i, ip)

/-- Entry `e` of the indirect block; if it is zero a block is allocated for it. -/
def loadEntry (indirect e : ℕ) : FsM Word := do
  let data ← bread indirect
  let addr := Bytes.getWord data (4 * e)
  if addr = 0 then
    let b ← balloc
    logWrite indirect (Bytes.putWord data (4 * e) (BitVec.ofNat 32 b))
    brelse indirect
    return BitVec.ofNat 32 b
  else
    brelse indirect
    return addr

def bmap (ip : Inode) (bn : ℕ) : FsM (Word × Inode) := do
  if bn < NDIRECT then
    let (addr, ip) ← loadAddr ip bn
    return (mask ip.type addr, ip)
  else if bn - NDIRECT < NINDIRECT then
    let (indirect, ip) ← loadAddr ip NDIRECT
    let addr ← loadEntry indirect.toNat (bn - NDIRECT)
    return (mask ip.type addr, ip)
  else throw .bmap

/-- The exclusive-or of the bytes of a block, each a signed `char` widened to a `uint`. -/
def checksum (data : Block) : Word :=
  (List.range BSIZE).foldl (fun sum i => sum ^^^ (Bytes.get data i).signExtend 32) 0

/-- The first direct slot that holds `block`. -/
def findDirect (ip : Inode) (block : Word) : Option ℕ :=
  (List.range NDIRECT).find? fun i => ip.addr i &&& 0x00ffffff = block

/-- The first entry of an indirect block that holds `block`. -/
def findIndirect (data : Block) (block : Word) : Option ℕ :=
  (List.range NINDIRECT).find? fun i => Bytes.getWord data (4 * i) &&& 0x00ffffff = block

/--
The tagged address `readi` compares with. The loop over the indirect block
does not advance its pointer: all its iterations look at the first entry.
-/
def readTag (ip : Inode) (block : Word) : FsM Word := do
  match findDirect ip block with
  | some i => return ip.addr i
  | none =>
      if ip.addr NDIRECT ≠ 0 then
        let data ← bread (ip.addr NDIRECT).toNat
        brelse (ip.addr NDIRECT).toNat
        let first := Bytes.getWord data 0
        return if first &&& 0x00ffffff = block then first else 0
      else return 0

/-- The indirect block as `writei` leaves it: the entry of `block`, if any, is replaced. -/
def tagEntry (entries : Block) (block tagged : Word) : Block :=
  match findIndirect entries block with
  | some i => Bytes.putWord entries (4 * i) tagged
  | none => entries

/-- The part of `writei` that stores the checksum of `data` in the slot of `block`. -/
def writeTag (ip : Inode) (block : Word) (data : Block) : FsM Inode :=
  if ip.type = T_CHECKED then
    let tagged := block + checksum data <<< 24
    match findDirect ip block with
    | some i => return ip.setAddr i tagged
    | none => do
        let indirect := (ip.addr NDIRECT).toNat
        let entries ← bread indirect
        bwrite indirect (tagEntry entries block tagged)
        brelse indirect
        return ip
  else return ip

/-- User memory behind a pointer. -/
abbrev Mem := ℕ → Byte

/-- `memmove(dst + tot, data + off, m)`. -/
def Mem.move (dst : Mem) (tot m : ℕ) (data : Block) (off : ℕ) : Mem :=
  fun j => if tot ≤ j ∧ j < tot + m then Bytes.get data (off + (j - tot)) else dst j

/-- A driver's entries in `devsw`; each leaves the file system as it is. -/
structure Devsw where
  read : ℕ → Option (Inode → Mem → Word → ℤ × Mem)
  write : ℕ → Option (Inode → Mem → Word → ℤ)

/-- The driver function for `ip->major`, if there is one. -/
def driver {α : Type} (table : ℕ → Option α) (major : Half) : Option α :=
  if major.toInt < 0 ∨ NDEV ≤ major.toInt then none else table major.toNat

/-- The result of `readi`, the memory behind `dst`, and the inode. -/
structure ReadResult where
  ret : ℤ
  dst : Mem
  ip : Inode

/-- The bytes moved by the next iteration of the loops of `readi` and `writei`. -/
def chunk (n tot off : ℕ) : ℕ := min (n - tot) (BSIZE - off % BSIZE)

/-- The loop of `readi`; `n` iterations are enough, since each moves a byte or more. -/
def readiLoop (n : ℕ) : ℕ → ℕ → ℕ → Inode → Mem → FsM ReadResult
  | 0, _, _, ip, dst => return ⟨(BitVec.ofNat 32 n).toInt, dst, ip⟩
  | fuel + 1, tot, off, ip, dst => do
      if tot < n then
        let (block, ip) ← bmap ip (off / BSIZE)
        let (addr, ip) ← bmap ip (off / BSIZE)
        let data ← bread addr.toNat
        let m := chunk n tot off
        if ip.type = T_CHECKED then
          let tag ← readTag ip block
          -- Returns without `brelse`, and without a copy to `dst`.
          return ⟨if checksum data = tag >>> 24 then 1 else -1, dst, ip⟩
        else
          brelse addr.toNat
          readiLoop n fuel (tot + m) (off + m) ip (dst.move tot m data (off % BSIZE))
      else return ⟨(BitVec.ofNat 32 n).toInt, dst, ip⟩

def readi (dev : Devsw) (ip : Inode) (dst : Mem) (off n : Word) : FsM ReadResult :=
  if ip.type = T_DEV then
    match driver dev.read ip.major with
    | none => return ⟨-1, dst, ip⟩
    | some read => return ⟨(read ip dst n).1, (read ip dst n).2, ip⟩
  else if off > ip.size ∨ off + n < off then return ⟨-1, dst, ip⟩
  else
    let n := if off + n > ip.size then ip.size - off else n
    readiLoop n.toNat n.toNat 0 off.toNat ip dst

/-- The loop of `writei`. It returns the final `off` with the inode. -/
def writeiLoop (src : Mem) (n : ℕ) : ℕ → ℕ → ℕ → Inode → FsM (ℕ × Inode)
  | 0, _, off, ip => return (off, ip)
  | fuel + 1, tot, off, ip => do
      if tot < n then
        let (block, ip) ← bmap ip (off / BSIZE)
        let (addr, ip) ← bmap ip (off / BSIZE)
        let old ← bread addr.toNat
        let m := chunk n tot off
        let data := Bytes.move old (off % BSIZE) m fun j => src (tot + j)
        let ip ← writeTag ip block data
        logWrite addr.toNat data
        bwrite addr.toNat data
        brelse addr.toNat
        writeiLoop src n fuel (tot + m) (off + m) ip
      else return (off, ip)

def writei (dev : Devsw) (ip : Inode) (src : Mem) (off n : Word) : FsM (ℤ × Inode) :=
  if ip.type = T_DEV then
    match driver dev.write ip.major with
    | none => return (-1, ip)
    | some write => return (write ip src n, ip)
  else if off > ip.size ∨ off + n < off then return (-1, ip)
  else if off + n > BitVec.ofNat 32 (MAXFILE * BSIZE) then return (-1, ip)
  else do
    let (off, ip) ← writeiLoop src n.toNat n.toNat 0 off.toNat ip
    if 0 < n.toNat ∧ ip.size.toNat < off then
      let ip := { ip with size := BitVec.ofNat 32 off }
      iupdate ip
      return (n.toInt, ip)
    else return (n.toInt, ip)

/-- The loop of `itrunc` over the direct slots from `i` on. -/
def freeDirect : ℕ → ℕ → Inode → FsM Inode
  | 0, _, ip => return ip
  | fuel + 1, i, ip => do
      if ip.addr i ≠ 0 then
        bfree (ip.addr i).toNat
        freeDirect fuel (i + 1) (ip.setAddr i 0)
      else freeDirect fuel (i + 1) ip

/-- The loop of `itrunc` over the entries of the indirect block. -/
def freeIndirect (data : Block) : ℕ → ℕ → FsM Unit
  | 0, _ => return
  | fuel + 1, j => do
      if Bytes.getWord data (4 * j) ≠ 0 then bfree (Bytes.getWord data (4 * j)).toNat
      freeIndirect data fuel (j + 1)

def itrunc (ip : Inode) : FsM Inode := do
  let ip ← freeDirect NDIRECT 0 ip
  let ip ← if ip.addr NDIRECT ≠ 0 then do
      let indirect := (ip.addr NDIRECT).toNat
      let data ← bread indirect
      freeIndirect data NINDIRECT 0
      brelse indirect
      bfree indirect
      pure (ip.setAddr NDIRECT 0)
    else pure ip
  let ip := { ip with size := 0 }
  iupdate ip
  return ip

end Xv6.Fs
