import Xv6.Fs.Charge

/-!
# Regular files refine byte arrays

The abstract file system of this module is a family of byte arrays, which calls
read and replace parts of. Any sequence of `readi` and `writei` calls on regular
inodes gives the replies of the abstract calls and leaves their contents, as
long as each write finds enough free blocks, and room in the log for the blocks
it logs. A write of 27 new blocks finds no such room in any transaction.
-/

namespace Xv6.Fs

open Prog

variable {ι : Type} [DecidableEq ι]

/-- The bytes of a file. -/
def contents (blk : Disk) (ip : Dinode) : List Byte :=
  (List.range ip.size.toNat).map (byteAt blk ip)

/-- Replace the bytes of `file` from `off` on. -/
def splice (file : List Byte) (off : ℕ) (bytes : List Byte) : List Byte :=
  file.take off ++ bytes ++ file.drop (off + bytes.length)

/-- Store bytes at the beginning of `dst`. -/
def Mem.store (dst : Mem) (bytes : List Byte) : Mem := fun j => bytes.getD j (dst j)

/-- A call on the inodes of a family. -/
inductive FileCall (ι : Type) where
  | readi (i : ι) (dst : Mem) (off n : Word)
  | writei (i : ι) (src : Mem) (off n : Word)
  /-- The log changes: `end_op`, a commit, `begin_op`, and what other processes log. -/
  | log (next : OpenLog)

/-- What a call returns, with the memory behind `dst`. -/
inductive Reply where
  | read (ret : ℤ) (dst : Mem)
  | write (ret : ℤ)
  | log

namespace FileCall

def run (dev : Devsw) (ips : ι → Inode) : FileCall ι → Prog OpenSt Panic (Reply × (ι → Inode))
  | readi i dst off n => do
      let r ← inLog (Fs.readi dev (ips i) dst off n)
      return (.read r.ret r.dst, Function.update ips i r.ip)
  | writei i src off n => do
      let r ← inLog (Fs.writei dev (ips i) src off n)
      return (.write r.1, Function.update ips i r.2)
  | log next => do
      modify fun s => { s with log := next }
      return (.log, ips)

/-- The call on byte arrays. -/
def spec (files : ι → List Byte) : FileCall ι → Reply × (ι → List Byte)
  | readi i dst off n =>
      if (files i).length < off.toNat ∨ 2 ^ 32 ≤ off.toNat + n.toNat then (.read (-1) dst, files)
      else
        let bytes := ((files i).drop off.toNat).take n.toNat
        (.read bytes.length (dst.store bytes), files)
  | writei i src off n =>
      if rejects (files i).length off.toNat n.toNat then (.write (-1), files)
      else
        let bytes := (List.range n.toNat).map src
        (.write n.toNat, Function.update files i (splice (files i) off.toNat bytes))
  | log _ => (.log, files)

/--
Enough blocks are free for the slots that the call has to allocate, and the log has room
for the blocks that it logs.
-/
def Affordable (ips : ι → Inode) (s : OpenSt) : FileCall ι → Prop
  | readi _ _ _ _ => True
  | writei i _ off n => rejects (ips i).size.toNat off.toNat n.toNat ∨
      (missing s.fs.blk (ips i).toDinode (span off.toNat n.toNat)).card ≤
        (free s.fs.sb s.fs.blk).card ∧
      s.log.Room s.fs.blk (ips i).toDinode off.toNat n.toNat
  | log _ => True

end FileCall

def runCalls (dev : Devsw) :
    List (FileCall ι) → (ι → Inode) → Prog OpenSt Panic (List Reply × (ι → Inode))
  | [], ips => return ([], ips)
  | call :: calls, ips => do
      let r ← call.run dev ips
      let rs ← runCalls dev calls r.2
      return (r.1 :: rs.1, rs.2)

def specCalls : List (FileCall ι) → (ι → List Byte) → List Reply × (ι → List Byte)
  | [], files => ([], files)
  | call :: calls, files =>
      let r := call.spec files
      let rs := specCalls calls r.2
      (r.1 :: rs.1, rs.2)

/-- Each call of the sequence is affordable when its turn comes. -/
def AllAffordable (dev : Devsw) : List (FileCall ι) → (ι → Inode) → OpenSt → Prop
  | [], _, _ => True
  | call :: calls, ips, s => call.Affordable ips s ∧
      ∀ r s', call.run dev ips s = .ok (r, s') → AllAffordable dev calls r.2 s'

/-- A family of regular inodes. -/
structure Files (s : St) (ips : ι → Inode) : Prop where
  owned : Owned s.sb s.blk ips
  regular : ∀ i, (ips i).type = T_FILE ∨ (ips i).type = T_DIR

variable {s : St} {ips : ι → Inode} {i : ι}

omit [DecidableEq ι] in
theorem Files.plain (files : Files s ips) (i : ι) :
    (ips i).type ≠ T_DEV ∧ (ips i).type ≠ T_CHECKED := by
  rcases files.regular i with file | dir
  · rw [file]
    decide
  · rw [dir]
    decide

@[simp]
theorem length_contents (blk : Disk) (ip : Dinode) : (contents blk ip).length = ip.size.toNat := by
  simp [contents]

theorem contents_congr {blk blk' : Disk} {ip ip' : Dinode} (size : ip'.size = ip.size)
    (same : ∀ x < ip.size.toNat, byteAt blk' ip' x = byteAt blk ip x) :
    contents blk' ip' = contents blk ip := by
  rw [contents, contents, size]
  apply List.map_congr_left
  intro x inside
  exact same x (List.mem_range.mp inside)

/-! ## One call -/

theorem take_drop_contents (blk : Disk) (ip : Dinode) (off n : ℕ) :
    ((contents blk ip).drop off).take n =
      (List.range (min n (ip.size.toNat - off))).map fun j => byteAt blk ip (off + j) := by
  apply List.ext_getElem
  · simp
  · intro j _ _
    simp [contents]

theorem fill_eq_store (dst : Mem) (n : ℕ) (f : ℕ → Byte) :
    dst.fill 0 n f = dst.store ((List.range n).map f) := by
  funext j
  simp only [Mem.fill, Mem.store]
  by_cases inside : j < n
  · rw [if_pos ⟨Nat.zero_le j, inside⟩]
    simp [List.getD_eq_getElem?_getD, inside]
  · rw [if_neg (by omega)]
    simp [List.getD_eq_getElem?_getD, inside]

omit [DecidableEq ι] in
theorem Owned.cell_eq {sb : Superblock} {blk : Disk} (own : Owned sb blk ips) {x : ℕ}
    (inside : x < (ips i).size.toNat) :
    cell blk (ips i).toDinode x = some (byteAt blk (ips i).toDinode x) := by
  rcases own.allocated_div inside with ⟨inRange, mapped⟩
  have refers := ref_eq_some.mpr ⟨mapped, rfl⟩
  rw [byteAt, cell, if_pos inRange, refers, Option.map_some, Option.getD_some]

theorem getElem?_contents (blk : Disk) (ip : Dinode) (x : ℕ) :
    (contents blk ip)[x]? = if x < ip.size.toNat then some (byteAt blk ip x) else none := by
  by_cases inside : x < ip.size.toNat
  · simp [contents, inside]
  · simp [contents, inside]

/-- The bytes of a file after a write. -/
theorem getElem?_splice {file bytes : List Byte} {off : ℕ} (inside : off ≤ file.length) (x : ℕ) :
    (splice file off bytes)[x]? =
      if off ≤ x ∧ x < off + bytes.length then bytes[x - off]? else file[x]? := by
  have length : (file.take off).length = off := by
    rw [List.length_take]
    omega
  rw [splice, List.getElem?_append, List.getElem?_append, List.length_append, length]
  by_cases low : x < off
  · rw [if_pos (by omega), if_pos low, if_neg (by omega), List.getElem?_take_of_lt low]
  · by_cases within : x < off + bytes.length
    · rw [if_pos within, if_neg low, if_pos (by omega)]
    · rw [if_neg within, if_neg (by omega), List.getElem?_drop]
      congr 1
      omega

/-- The contents of the file that has been written. -/
theorem Written.contents_eq {sb : Superblock} {blk blk' : Disk} {ip' : Inode} {off n : ℕ}
    {src : Mem} (done : Written sb blk blk' ips i ip' off n src) (own : Owned sb blk ips)
    (inside : off ≤ (ips i).size.toNat) (short : off + n ≤ MAXFILE * BSIZE) :
    contents (flush sb blk' ip' (off + n)) (extend ip' (off + n)).toDinode =
      splice (contents blk (ips i).toDinode) off ((List.range n).map src) := by
  have size : (extend ip' (off + n)).size.toNat = max (ips i).size.toNat (off + n) := by
    rw [size_extend short, done.size_eq]
  have bytes : ∀ x, byteAt (flush sb blk' ip' (off + n)) (extend ip' (off + n)).toDinode x =
      (cell blk' ip'.toDinode x).getD 0 := by
    intro x
    have same := done.cell_flush (off + n) i x
    rw [Function.update_self, Function.update_self] at same
    rw [byteAt, same]
  apply List.ext_getElem?
  intro x
  rw [getElem?_contents, getElem?_splice (by rw [length_contents]; exact inside),
    getElem?_contents, size, bytes, List.length_map, List.length_range]
  by_cases within : off ≤ x ∧ x < off + n
  · rw [if_pos within, if_pos (by omega), done.cells x within.1 within.2, Option.getD_some]
    simp [show x - off < n by omega]
  · rw [if_neg within]
    by_cases old : x < (ips i).size.toNat
    · rw [if_pos (by omega), if_pos old, done.kept x _ (by omega) (own.cell_eq old),
        Option.getD_some]
    · rw [if_neg (by omega), if_neg old]

/-- The contents of the other files. -/
theorem Written.contents_other {sb : Superblock} {blk blk' : Disk} {ip' : Inode} {off n : ℕ}
    {src : Mem} (done : Written sb blk blk' ips i ip' off n src) (last : ℕ) {j : ι}
    (other : j ≠ i) :
    contents (flush sb blk' ip' last) (ips j).toDinode = contents blk (ips j).toDinode := by
  apply contents_congr rfl
  intro x _
  have same := done.cell_flush last j x
  rw [Function.update_of_ne other, Function.update_of_ne other] at same
  rw [byteAt, same, byteAt, cell, cell]
  congr 1
  split
  next inFile =>
    rw [ref_congr rfl (done.others j other _)]
    apply Option.map_congr
    intro b refers
    rw [done.data j _ b inFile.ne (fun impossible => absurd impossible other) refers]
  next => rfl

/-- The outcome of a call is that of the abstract call. -/
def Refines (call : FileCall ι) (s : OpenSt) (ips : ι → Inode) (r : Reply × (ι → Inode))
    (s' : OpenSt) : Prop :=
  Files s'.fs r.2 ∧ (r.1, fun j => contents s'.fs.blk (r.2 j).toDinode) =
    call.spec fun j => contents s.fs.blk (ips j).toDinode

omit [DecidableEq ι] in
/-- The size of an inode is bounded, since its last block is allocated. -/
theorem Owned.size_le {sb : Superblock} {blk : Disk} (own : Owned sb blk ips) (i : ι) :
    (ips i).size.toNat ≤ MAXFILE * BSIZE := by
  by_contra large
  have allocated := own.allocated i MAXFILE (by omega)
  exact absurd allocated.1 (lt_irrefl _)

section Calls

variable {s : OpenSt}

/-- `readi` is a read of the array. -/
theorem readi_refines {dev : Devsw} (files : Files s.fs ips) (i : ι) (dst : Mem) (off n : Word) :
    Meets ((FileCall.readi i dst off n).run dev ips) s (fun _ => False)
      (Refines (.readi i dst off n) s ips) := by
  have own := files.owned
  refine meets_bind (meets_inLog ?_ fun r fs returned => ?_)
  · by_cases rejected : (ips i).size.toNat < off.toNat ∨ 2 ^ 32 ≤ off.toNat + n.toNat
    · have failed : readi dev (ips i) dst off n { s.fs with calls := [] } =
          .ok (⟨-1, dst, ips i⟩, { s.fs with calls := [] }) := by
        rw [readi, if_neg (files.plain i).1, if_pos (rejects_iff.mpr rejected)]
        rfl
      refine meets_ok failed fun log => meets_pure ⟨?_, ?_⟩
      · rw [Function.update_eq_self]
        exact ⟨own, files.regular⟩
      · simp only [Function.update_eq_self, FileCall.spec, length_contents, if_pos rejected]
    · rcases not_or.mp rejected with ⟨inside, fits⟩
      refine readi_meets (s := { s.fs with calls := [] }) own (files.plain i) (by omega) (by omega)
        fun calls log => meets_pure ⟨?_, ?_⟩
      · rw [Function.update_eq_self]
        exact ⟨own, files.regular⟩
      · have ret : (BitVec.ofNat 32 (min n.toNat ((ips i).size.toNat - off.toNat))).toInt =
            (min n.toNat ((ips i).size.toNat - off.toNat) : ℕ) := by
          have bound := own.size_le i
          simp only [MAXFILE, NINDIRECT, NDIRECT, BSIZE] at bound
          rw [BitVec.toInt_eq_toNat_of_lt (by rw [BitVec.toNat_ofNat]; omega), BitVec.toNat_ofNat,
            Nat.mod_eq_of_lt (by omega)]
        simp only [Function.update_eq_self, FileCall.spec, length_contents, if_neg rejected,
          take_drop_contents, List.length_map, List.length_range, fill_eq_store, ret]
  · have logs := (readi_logs (s := { s.fs with calls := [] }) own (files.plain i)).of_ok returned
    exact ⟨s.log, OpenLog.takes_of_logged_nil (logs.of_calls rfl)⟩

omit [DecidableEq ι] in
/-- A refused write is made in any log, and changes nothing. -/
theorem inLog_writei_of_rejects {dev : Devsw} {ip : Inode} (notDev : ip.type ≠ T_DEV) {src : Mem}
    {off n : Word} (rejected : rejects ip.size.toNat off.toNat n.toNat) :
    inLog (writei dev ip src off n) s = .ok ((-1, ip), s) := by
  rw [inLog_ok (writei_of_rejects notDev rejected) rfl]
  simp

/-- `writei` is a write to the array, if there are blocks and the log has room. -/
theorem writei_refines {dev : Devsw} (files : Files s.fs ips) {i : ι} {src : Mem} {off n : Word}
    (affordable : (FileCall.writei i src off n).Affordable ips s) :
    Meets ((FileCall.writei i src off n).run dev ips) s (fun _ => False)
      (Refines (.writei i src off n) s ips) := by
  have own := files.owned
  by_cases rejected : rejects (ips i).size.toNat off.toNat n.toNat
  · refine meets_bind_ok (inLog_writei_of_rejects (files.plain i).1 rejected) (meets_pure ⟨?_, ?_⟩)
    · rw [Function.update_eq_self]
      exact files
    · simp only [Function.update_eq_self, FileCall.spec, length_contents, if_pos rejected]
  · rcases affordable.resolve_left rejected with ⟨enough, room⟩
    refine meets_bind (meets_inLog ?_ fun r fs returned => ?_)
    · refine writei_meets (s := { s.fs with calls := [] }) rfl own (files.plain i).1 rejected
        (fun short => absurd enough (Nat.not_le.mpr short)) ?_
      intro ip' blk' calls done log
      have accepted := rejected
      simp only [rejects, not_or, Nat.not_lt, Nat.not_le] at accepted
      rcases accepted with ⟨inside, fits, short⟩
      refine meets_pure ⟨⟨done.owned_flush inside short, ?_⟩, ?_⟩
      · intro j
        rw [update_congr (fun ip => ip.type) (by rw [type_extend, done.type_eq])]
        exact files.regular j
      · simp only [FileCall.spec, length_contents, if_neg rejected, Prod.mk.injEq, true_and]
        funext j
        by_cases same : j = i
        · subst same
          rw [Function.update_self, Function.update_self]
          exact done.contents_eq own inside short
        · rw [Function.update_of_ne same, Function.update_of_ne same]
          exact done.contents_other _ same
    · exact writei_taken (s := { s.fs with calls := [] }) own (files.plain i) rejected room rfl
        returned

theorem FileCall.refines {dev : Devsw} (files : Files s.fs ips) {call : FileCall ι}
    (affordable : call.Affordable ips s) :
    Meets (call.run dev ips) s (fun _ => False) (Refines call s ips) := by
  cases call with
  | readi i dst off n => exact readi_refines files i dst off n
  | writei i src off n => exact writei_refines files affordable
  | log next => exact meets_bind (meets_modify (meets_pure ⟨files, rfl⟩))

/-! ## Any sequence of calls -/

/-- `writei` refuses nothing but what its first tests refuse. -/
theorem writei_eq_neg_one {dev : Devsw} (files : Files s.fs ips) {i : ι} {src : Mem} {off n : Word}
    {ip' : Inode} {s' : OpenSt}
    (failed : inLog (writei dev (ips i) src off n) s = .ok ((-1, ip'), s')) :
    rejects (ips i).size.toNat off.toNat n.toNat := by
  by_contra accepted
  rcases ok_of_inLog failed with ⟨fs, returned, _⟩
  have nonneg : Meets (writei dev (ips i) src off n) { s.fs with calls := [] } (fun _ => True)
      fun r _ => 0 ≤ r.1 := by
    refine writei_meets (s := { s.fs with calls := [] }) rfl files.owned (files.plain i).1 accepted
      (fun _ => trivial) ?_
    intro ip' blk' calls _
    exact Int.natCast_nonneg _
  have impossible := nonneg.of_ok returned
  omega

/-- A run of calls is a run on arrays, if each of them can be afforded. -/
theorem runCalls_refines {dev : Devsw} {calls : List (FileCall ι)} (files : Files s.fs ips)
    (affordable : AllAffordable dev calls ips s) :
    ∃ ips' s', runCalls dev calls ips s =
        .ok (((specCalls calls fun j => contents s.fs.blk (ips j).toDinode).1, ips'), s') ∧
      Files s'.fs ips' ∧ (fun j => contents s'.fs.blk (ips' j).toDinode) =
        (specCalls calls fun j => contents s.fs.blk (ips j).toDinode).2 := by
  induction calls generalizing s ips with
  | nil => exact ⟨ips, s, rfl, files, rfl⟩
  | cons call calls ih =>
      rcases affordable with ⟨first, rest⟩
      rcases (FileCall.refines files first).returns (fun _ impossible => impossible) with
        ⟨⟨reply, ips₁⟩, s₁, returned, files₁, outcome⟩
      rcases ih files₁ (rest _ _ returned) with ⟨ips', s', run, files', final⟩
      have reply_eq := congrArg Prod.fst outcome
      have files_eq := congrArg Prod.snd outcome
      simp only at reply_eq files_eq
      refine ⟨ips', s', ?_, files', ?_⟩
      · simp only [specCalls, ← reply_eq, ← files_eq]
        rw [runCalls, bind_of_ok returned, bind_of_ok run]
        rfl
      · simp only [specCalls, ← files_eq]
        exact final

/--
Any sequence of calls on regular inodes returns what the abstract calls return
and leaves the contents that they leave, if each write finds enough free blocks
and room in the log. In the state it reaches, a further `writei` fails exactly
when the range is refused, and then changes nothing.
-/
theorem runCalls_refines_arrays {dev : Devsw} {calls : List (FileCall ι)} (files : Files s.fs ips)
    (affordable : AllAffordable dev calls ips s) :
    ∃ ips' s', runCalls dev calls ips s =
        .ok (((specCalls calls fun j => contents s.fs.blk (ips j).toDinode).1, ips'), s') ∧
      (fun j => contents s'.fs.blk (ips' j).toDinode) =
        (specCalls calls fun j => contents s.fs.blk (ips j).toDinode).2 ∧
      Files s'.fs ips' ∧
      (∀ i src off n, rejects (ips' i).size.toNat off.toNat n.toNat →
        inLog (writei dev (ips' i) src off n) s' = .ok ((-1, ips' i), s')) ∧
      (∀ i src off n ip'' s'', inLog (writei dev (ips' i) src off n) s' = .ok ((-1, ip''), s'') →
        rejects (ips' i).size.toNat off.toNat n.toNat) := by
  rcases runCalls_refines files affordable with ⟨ips', s', run, files', final⟩
  refine ⟨ips', s', run, final, files', ?_, ?_⟩
  · intro i src off n rejected
    exact inLog_writei_of_rejects (files'.plain i).1 rejected
  · intro i src off n ip'' s'' failed
    exact writei_eq_neg_one files' failed

end Calls

/-- Two empty files on an empty disk. -/
def twoFiles (second : Bool) : Inode := emptyInode T_FILE (if second then 3 else 2)

/-- The state of an empty disk. -/
def emptySt : St := ⟨.mkfs, emptyDisk, []⟩

/-- No device drivers. -/
def noDevices : Devsw := ⟨fun _ => none, fun _ => none⟩

/-- An operation is open, and the header is empty. -/
def newLog : OpenLog := ⟨LOGSIZE, [], 1⟩

/-- Another operation is open, and the header lists 20 blocks. -/
def busyLog : OpenLog := ⟨LOGSIZE, List.range 20, 2⟩

/--
Three bytes are written to the second file in one transaction, two of them are replaced in
another one, in which other processes have logged blocks, and the file is read.
-/
def writeRead : List (FileCall Bool) :=
  [.writei true (fun j => BitVec.ofNat 8 (j + 7)) 0 3, .log busyLog,
    .writei true (fun _ => 1) 1 2, .readi true (fun _ => 0) 0 5]

theorem files_twoFiles : Files emptySt twoFiles := by
  refine ⟨Owned.of_empty layout_mkfs low_emptyDisk ?_ (fun _ _ _ => rfl) fun _ => rfl, fun _ =>
    Or.inl rfl⟩
  decide

/-- A disk of `mkfs` has room for more blocks than the log. -/
theorem free_emptyDisk : 30 ≤ (free .mkfs emptyDisk).card := by
  have some : Finset.Ico 59 89 ⊆ free .mkfs emptyDisk := by decide +kernel
  exact (Finset.card_le_card some).trans' (by decide)

/-- Writes and reads of two files, of which one stays empty. -/
theorem runCalls_writeRead : ∃ ips' s',
    runCalls noDevices writeRead twoFiles ⟨emptySt, newLog⟩ =
      .ok (((specCalls writeRead fun j => contents emptyDisk (twoFiles j).toDinode).1, ips'), s') ∧
    contents s'.fs.blk (ips' true).toDinode = [7, 1, 1] ∧
    contents s'.fs.blk (ips' false).toDinode = [] := by
  have needed : (missing emptyDisk (twoFiles true).toDinode (span 0 3)).card ≤ 1 := by
    rw [span_chunk (by decide) (by decide)]
    exact (Finset.card_filter_le _ _).trans_eq rfl
  -- After the first write nothing is missing, and the next one logs the data block only.
  have after : (((FileCall.writei true (fun j => BitVec.ofNat 8 (j + 7)) 0 3).run noDevices twoFiles
      ⟨emptySt, newLog⟩).toOption.map fun r =>
        ((missing r.2.fs.blk (r.1.2 true).toDinode (span 1 2)).card,
          charge r.2.fs.blk (r.1.2 true).toDinode 1 2)) = some (0, 1) := by
    decide +kernel
  have affordable : AllAffordable noDevices writeRead twoFiles ⟨emptySt, newLog⟩ := by
    refine ⟨Or.inr ⟨needed.trans ((by decide : 1 ≤ 30).trans free_emptyDisk), Or.inr ?_⟩,
      fun r s' written => ⟨trivial, fun r' s'' changed => ⟨Or.inr ?_, fun _ _ _ =>
        ⟨trivial, fun _ _ _ => trivial⟩⟩⟩⟩
    · decide +kernel
    · rw [written] at after
      cases changed
      simp only [Except.toOption, Option.map_some, Option.some.injEq, Prod.mk.injEq] at after
      refine ⟨after.1.le.trans (Nat.zero_le _), Or.inr ⟨(by decide : 1 ≤ busyLog.outstanding), ?_⟩⟩
      have room : busyLog.lh.length + 1 ≤ busyLog.limit := by decide
      exact (Nat.add_le_add_left after.2.le busyLog.lh.length).trans room
  rcases runCalls_refines_arrays files_twoFiles affordable with ⟨ips', s', run, final, _⟩
  refine ⟨ips', s', run, ?_, ?_⟩
  · rw [congrFun final true]
    decide
  · rw [congrFun final false]
    decide

/-- 27 blocks are written to the second file. -/
def blocks27 : FileCall Bool := .writei true (fun _ => 0) 0 13824

/--
The disk has enough free blocks for 27 blocks and the range is accepted, but the write
panics in every transaction: it logs 30 blocks, with the bitmap, the indirect block and the
inode, and the header has room for 29.
-/
theorem not_runCalls_blocks27 : Files emptySt twoFiles ∧ ¬rejects 0 0 13824 ∧
    (missing emptyDisk (twoFiles true).toDinode (span 0 13824)).card ≤ (free .mkfs emptyDisk).card ∧
    ∀ log, log.size = LOGSIZE →
      ∀ r, runCalls noDevices [blocks27] twoFiles ⟨emptySt, log⟩ ≠ .ok r := by
  have short : 0 + 13824 ≤ 27 * BSIZE := by decide
  have needed : (missing emptyDisk (twoFiles true).toDinode (span 0 13824)).card ≤ 28 :=
    (Finset.card_filter_le _ _).trans ((Finset.card_le_card (span_subset short)).trans (by decide))
  have logs : ((writei noDevices (twoFiles true) (fun _ => 0) 0 13824 emptySt).toOption.map fun r =>
      (logged r.2.calls).toFinset.card) = some 30 := by
    decide +kernel
  refine ⟨files_twoFiles, by decide, needed.trans ((by decide : 28 ≤ 30).trans free_emptyDisk), ?_⟩
  intro log size r run
  rcases ok_of_bind run with ⟨a, s₁, called, _⟩
  rcases ok_of_bind called with ⟨b, s₂, returned, _⟩
  rcases ok_of_inLog returned with ⟨fs, wrote, taken, _⟩
  have wrote' : writei noDevices (twoFiles true) (fun _ => 0) 0 13824 emptySt = .ok (b, fs) := wrote
  rw [wrote'] at logs
  have count : (logged fs.calls).toFinset.card = 30 := Option.some.inj logs
  refine OpenLog.not_takes_of_card ?_ _ taken
  rw [count, OpenLog.limit, show (⟨emptySt, log⟩ : OpenSt).log.size = LOGSIZE from size]
  decide

end Xv6.Fs
