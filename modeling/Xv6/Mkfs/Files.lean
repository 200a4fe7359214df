import Xv6.Mkfs.Root

/-!
# What `mkfs` builds

`main` starts from an image of zeros, makes the root directory, and then adds one file
after the other. `Built` is what holds between two files: the ledger, the inodes that
have been handed out, and the names in the root.
-/

namespace Xv6.Mkfs

open Fs Prog
open Checker (Dirent DPB dot dotdot)

variable {s s' : St} {E : Exit → Prop} {files : List File}

/-- The inode of the root. -/
def root : Fin NINODES := ⟨ROOTINO, by decide⟩

theorem ne_root {i : Fin NINODES} (above : 2 ≤ i.val) : i ≠ root := by
  rintro rfl
  exact absurd above (by decide)

/-- The entries of the root. -/
def rootEntries (files : List File) : List Dirent :=
  entry ROOTINO dot :: entry ROOTINO dotdot ::
    files.zipIdx.map fun file => entry (file.2 + 2) (strip file.1.name)

theorem length_rootEntries : (rootEntries files).length = files.length + 2 := by
  simp [rootEntries]

theorem rootEntries_concat (file : File) : rootEntries (files ++ [file]) =
    rootEntries files ++ [entry (files.length + 2) (strip file.name)] := by
  simp [rootEntries, List.zipIdx_append]

theorem length_strncpy (name : List Byte) : (strncpy name).length = DIRSIZ := Strings.length_copy

/-- The bytes that are put into inode `i`. -/
def contentsOf (files : List File) (i : ℕ) : List Byte :=
  if 2 ≤ i then (files[i - 2]?).elim [] File.contents else []

/-- The last file has the next inode. -/
theorem contentsOf_concat (file : File) (i : ℕ) : contentsOf (files ++ [file]) i =
    if i = files.length + 2 then file.contents else contentsOf files i := by
  simp only [contentsOf]
  by_cases last : i = files.length + 2
  · subst last
    rw [if_pos (by omega), if_pos rfl, Nat.add_sub_cancel, List.getElem?_append_right le_rfl,
      Nat.sub_self]
    rfl
  · rw [if_neg last]
    split_ifs with isFile
    · by_cases before : i - 2 < files.length
      · rw [List.getElem?_append_left before]
      · rw [List.getElem?_eq_none (Nat.not_lt.mp before), List.getElem?_eq_none]
        rw [List.length_append, List.length_singleton]
        omega
    · rfl

theorem contentsOf_of_ge {i : ℕ} (behind : files.length + 2 ≤ i) : contentsOf files i = [] := by
  rw [contentsOf, if_pos (by omega), List.getElem?_eq_none (by omega)]
  rfl

/-- The file with other bytes in it. -/
def File.holding (file : File) (bs : List Byte) : File := { file with contents := bs }

theorem rootEntries_holding (file : File) (bs : List Byte) :
    rootEntries (files ++ [file.holding bs]) = rootEntries (files ++ [file]) := by
  rw [rootEntries_concat, rootEntries_concat]
  rfl

/-! ## `ialloc` -/

/-- `ialloc` writes a new inode. -/
theorem meets_ialloc {i : Fin NINODES} {type : Half} {Q : ℕ → St → Prop} (before : Sound s)
    (next : s.freeinode = i) (free : (inodes s.img.blk i).addrs = fun _ => 0)
    (post : ∀ s', Sound s' → s'.freeinode = i + 1 → s'.freeblock = s.freeblock →
      inodes s'.img.blk = Function.update (inodes s.img.blk) i (fresh type) →
      (∀ b, (b < sb.inodestart ∨ nmeta ≤ b) → s'.img.blk b = s.img.blk b) → Q i s') :
    Meets (ialloc type) s E Q := by
  refine meets_bind (meets_get (meets_bind (meets_modify ?_)))
  rw [next]
  refine meets_bind (meets_winode before.count
    (meets_pure (post _ ⟨before.count, before.bound, ?_⟩ rfl
    rfl inodes_saved ?_)))
  · refine Ledger.saved ?_ free.symm
    rw [Function.update_eq_self]
    exact before.ledger
  · intro b outside
    apply saved_of_ne
    have bounds := iblock_bounds i
    have below := iblock_lt_nmeta i
    omega

/-! ## The invariant -/

/-- The type of inode `i` when `n` is the next one. -/
def typeOf (n i : ℕ) : Half := if i = ROOTINO then T_DIR else if 2 ≤ i ∧ i < n then T_FILE else 0

structure Built (s : St) (files : List File) : Prop where
  sound : Sound s
  super : s.img.blk 1 = superBlock
  next : s.freeinode = files.length + 2
  types : ∀ i : Fin NINODES, (inodes s.img.blk i).type = typeOf s.freeinode i
  nlink : ∀ i : Fin NINODES, 2 ≤ i.val → i.val < s.freeinode → (inodes s.img.blk i).nlink = 1
  free : ∀ i : Fin NINODES, i.val = 0 ∨ s.freeinode ≤ i → (inodes s.img.blk i).addrs = fun _ => 0
  lists : Lists s.img.blk (inodes s.img.blk root) (rootEntries files)
  size : (inodes s.img.blk root).size.toNat = 16 * (rootEntries files).length
  stored : ∀ i : Fin NINODES, i ≠ root → Stores s.img.blk (inodes s.img.blk i) (contentsOf files i)

/-- An `iappend` to the last file keeps all but its bytes. -/
theorem Built.of_kept {i : Fin NINODES} {file : File} {bs : List Byte}
    (built : Built s (files ++ [file])) (after : Sound s') (kept : Kept s s' i)
    (last : i.val = files.length + 2) (stores : Stores s'.img.blk (inodes s'.img.blk i) bs) :
    Built s' (files ++ [file.holding bs]) where
  sound := after
  super := by
    rw [kept.low 1 (by decide)]
    exact built.super
  next := by
    rw [kept.freeinode, built.next, List.length_append, List.length_append]
    rfl
  types j := by
    rw [kept.freeinode, ← built.types j]
    by_cases same : j = i
    · subst same
      exact kept.type
    · rw [kept.others j same]
  nlink j lower upper := by
    rw [kept.freeinode] at upper
    rw [← built.nlink j lower upper]
    by_cases same : j = i
    · subst same
      exact kept.nlink
    · rw [kept.others j same]
  free j outside := by
    have next := built.next
    rw [List.length_append, List.length_singleton] at next
    rw [kept.freeinode] at outside
    have other : j ≠ i := by
      rintro rfl
      omega
    rw [kept.others j other]
    exact built.free j outside
  lists := by
    rw [rootEntries_holding]
    exact built.lists.of_kept kept (ne_root (by omega)).symm
  size := by
    rw [rootEntries_holding, kept.others root (ne_root (by omega)).symm]
    exact built.size
  stored j notRoot := by
    rw [contentsOf_concat]
    split_ifs with same
    · obtain rfl : j = i := Fin.ext (same.trans last.symm)
      exact stores
    · have other : j ≠ i := fun equal => same (by rw [equal, last])
      have before := built.stored j notRoot
      rw [contentsOf_concat, if_neg same] at before
      exact before.of_kept kept other

/-- The inode of a new file has been made, and its name has been put into the root. -/
theorem Built.add {i : Fin NINODES} {file : File} {s'' : St} (built : Built s files)
    (empty : file.contents = []) (next : s.freeinode = i)
    (table : inodes s'.img.blk = Function.update (inodes s.img.blk) i (fresh T_FILE))
    (freeinode : s'.freeinode = i + 1)
    (same : ∀ b, (b < sb.inodestart ∨ nmeta ≤ b) → s'.img.blk b = s.img.blk b) (after : Sound s'')
    (kept : Kept s' s'' root) (lists :
    Lists s''.img.blk (inodes s''.img.blk root) (rootEntries (files ++ [file])))
      (size : (inodes s''.img.blk root).size.toNat = 16 * (rootEntries (files ++ [file])).length) :
    Built s'' (files ++ [file]) := by
  have count := built.next
  have notRoot : i ≠ root := ne_root (by omega)
  have others : ∀ j, j ≠ root → j ≠ i → inodes s''.img.blk j = inodes s.img.blk j := by
    intro j notRoot' other
    rw [kept.others j notRoot', table, Function.update_of_ne other]
  have new : inodes s''.img.blk i = fresh T_FILE := by
    rw [kept.others i notRoot, table, Function.update_self]
  have zero : contentsOf files i = [] := contentsOf_of_ge (by omega)
  have before : ∀ j, j ≠ root → Stores s'.img.blk (inodes s'.img.blk j) (contentsOf files j) := by
    intro j notRoot'
    by_cases isNew : j = i
    · subst isNew
      rw [zero, table, Function.update_self]
      exact .empty rfl rfl
    · have stores := built.stored j notRoot'
      have unchanged : inodes s'.img.blk j = inodes s.img.blk j := by
        rw [table, Function.update_of_ne isNew]
      have data : ∀ k, slot s.img.blk (inodes s.img.blk j) k ≠ 0 →
          s'.img.blk (slot s.img.blk (inodes s.img.blk j) k).toNat =
            s.img.blk (slot s.img.blk (inodes s.img.blk j) k).toNat :=
        fun k used => same _ (Or.inr (built.sound.ledger.inside j k used).1)
      rw [unchanged]
      refine ⟨stores.toHolds.congr (fun k _ => ?_) fun k _ used => data k used, stores.size⟩
      apply slot_congr
      intro mapped
      have indirect := data MAXFILE
      rw [slot_maxfile] at indirect
      exact indirect mapped
  refine ⟨after, ?_, ?_, ?_, ?_, ?_, lists, size, ?_⟩
  · rw [kept.low 1 (by decide), same 1 (Or.inl (by decide))]
    exact built.super
  · rw [kept.freeinode, freeinode, List.length_append, List.length_singleton]
    omega
  · intro j
    rw [kept.freeinode, freeinode]
    by_cases isRoot : j = root
    · subst isRoot
      rw [kept.type, table, Function.update_of_ne notRoot.symm, built.types root]
      rfl
    · have number : j.val ≠ ROOTINO := fun equal => isRoot (Fin.ext equal)
      by_cases isNew : j = i
      · subst isNew
        rw [new, typeOf, if_neg number, if_pos (by omega)]
        rfl
      · have differ : j.val ≠ i.val := fun equal => isNew (Fin.ext equal)
        rw [others j isRoot isNew, built.types j, typeOf, typeOf, next]
        congr 2
        apply propext
        omega
  · intro j lower upper
    rw [kept.freeinode, freeinode] at upper
    have isFile : j ≠ root := ne_root lower
    by_cases isNew : j = i
    · subst isNew
      rw [new]
      rfl
    · have differ : j.val ≠ i.val := fun equal => isNew (Fin.ext equal)
      rw [others j isFile isNew]
      exact built.nlink j lower (by omega)
  · intro j outside
    rw [kept.freeinode, freeinode] at outside
    have isNew : j ≠ i := by
      rintro rfl
      omega
    have notRoot' : j ≠ root := by
      rintro rfl
      simp only [root, ROOTINO] at outside
      omega
    rw [others j notRoot' isNew]
    exact built.free j (by omega)
  · intro j notRoot'
    have stores := (before j notRoot').of_kept kept notRoot'
    rw [contentsOf_concat]
    split_ifs with last
    · rw [empty]
      obtain rfl : j = i := Fin.ext (by omega)
      rwa [zero] at stores
    · exact stores

/-! ## Adding files -/

/-- The number of bytes that are read from a file. -/
def volume (chunks : List (List Byte)) : ℕ := (chunks.map List.length).sum

/-- The loop that reads a file appends all of its bytes. -/
theorem meets_chunks {i : Fin NINODES} {file : File} {bs : List Byte} {chunks : List (List Byte)}
    {Q : Unit → St → Prop} (built : Built s (files ++ [file.holding bs]))
    (last : i.val = files.length + 2)
    (stop : FSSIZE < s.freeblock + 2 * volume chunks ∨
      MAXFILE * BSIZE < (inodes s.img.blk i).size.toNat + volume chunks → ∀ e, E e)
    (post : ∀ s', Built s' (files ++ [file.holding (bs ++ chunks.flatten)]) →
      s'.freeblock ≤ s.freeblock + 2 * volume chunks → Q () s') :
    Meets (forM chunks (iappend i)) s E Q := by
  induction chunks generalizing s bs with
  | nil =>
      rw [List.flatten_nil, List.append_nil] at post
      exact meets_pure (post s built (Nat.le_add_right _ _))
  | cons p chunks ih =>
      have total : volume (p :: chunks) = p.length + volume chunks := by simp [volume]
      rw [total, List.flatten_cons, ← List.append_assoc] at post
      rw [total] at stop
      rw [List.forM_cons]
      refine meets_bind (meets_iappend built.sound ?_ ?_)
      · intro failure
        refine stop (failure.imp ?_ ?_)
        · intro full
          omega
        · intro large
          omega
      · intro s' after kept size few appended
        have stores := built.stored i (ne_root (by omega))
        rw [contentsOf_concat, if_pos last] at stores
        refine ih (built.of_kept after kept last (appended bs stores)) ?_ ?_
        · have atMost : (inodes s'.img.blk i).size.toNat ≤
              (inodes s.img.blk i).size.toNat + p.length := by
            rw [size, BitVec.toNat_ofNat]
            exact Nat.mod_le _ _
          intro failure
          refine stop (failure.imp ?_ ?_)
          · intro full
            omega
          · intro large
            omega
        · intro s'' built' few'
          exact post s'' built' (by omega)

/-- The pieces that are read make up the whole. -/
theorem flatten_go {α : Type} (n : ℕ) (xs : List α) (acc : Array α) (chunks : Array (List α)) :
    (List.toChunks.go n xs acc chunks).flatten = chunks.toList.flatten ++ acc.toList ++ xs := by
  induction xs generalizing acc chunks with
  | nil => simp [List.toChunks.go]
  | cons x xs ih =>
      rw [List.toChunks.go]
      split
      · rw [ih]
        simp
      · rw [ih]
        simp

theorem flatten_toChunks {α : Type} (n : ℕ) (xs : List α) : (xs.toChunks n).flatten = xs := by
  match n, xs with
  | _, [] => simp [List.toChunks]
  | 0, x :: xs => simp [List.toChunks]
  | n + 1, x :: xs =>
      rw [List.toChunks, flatten_go]
      · simp
      · exact nofun

/-- The blocks that a file takes at most. -/
def blocksOf (file : File) : ℕ := 2 + 2 * volume (file.contents.toChunks BSIZE)

/-- A file gets its inode, its entry in the root and its contents. -/
theorem meets_addFile {file : File} {Q : Unit → St → Prop} (built : Built s files)
    (few : files.length + 2 < NINODES)
    (stop : (0x2f : Byte) ∈ file.name ∨ FSSIZE < s.freeblock + blocksOf file → ∀ e, E e)
    (post : ∀ s', Built s' (files ++ [file]) → s'.freeblock ≤ s.freeblock + blocksOf file →
      Q () s') :
    Meets (addFile ROOTINO file) s E Q := by
  have next := built.next
  obtain ⟨i, here⟩ : ∃ i : Fin NINODES, s.freeinode = i := ⟨⟨files.length + 2, few⟩, next⟩
  have notRoot : i ≠ root := ne_root (by omega)
  simp only [blocksOf] at stop post
  refine meets_bind (meets_assert (fun slash => stop (Or.inl (not_not.mp slash))) fun _ => ?_)
  refine meets_bind (meets_ialloc built.sound here (built.free i (Or.inr here.le)) ?_)
  intro s' after freeinode sameBlock table same
  have rootSame : inodes s'.img.blk root = inodes s.img.blk root := by
    rw [table, Function.update_of_ne notRoot.symm]
  have lists : Lists s'.img.blk (inodes s'.img.blk root) (rootEntries files) := by
    refine built.lists.congr (fun _ _ => by rw [rootSame]) fun j below used => same _ (Or.inr ?_)
    have inside := built.sound.ledger.inside root j
    rw [slot_direct _ below] at inside
    exact (inside used).1
  have size : (inodes s'.img.blk root).size.toNat = 16 * (rootEntries files).length := by
    rw [rootSame]
    exact built.size
  have room : (rootEntries files).length < NDIRECT * DPB := by
    rw [length_rootEntries]
    exact few.trans (by decide)
  refine meets_bind (meets_iappend_entry (i := root) after lists size room (length_strncpy _) ?_ ?_)
  · intro full
    exact stop (Or.inr (by omega))
  · intro s'' after' kept lists' size' few'
    have number : (i : ℕ) = files.length + 2 := by rw [← here, next]
    rw [number, ← rootEntries_concat, ← rootEntries_holding file []] at lists' size'
    have built' : Built s'' (files ++ [file.holding []]) :=
      built.add rfl here table freeinode same after' kept lists' size'
    have fresh : (inodes s''.img.blk i).size.toNat = 0 := by
      rw [kept.others i notRoot, table, Function.update_self]
      rfl
    refine meets_chunks built' number ?_ ?_
    · rw [fresh]
      intro failure
      refine stop (Or.inr ?_)
      simp only [MAXFILE, BSIZE, FSSIZE, NDIRECT, NINDIRECT] at failure ⊢
      omega
    · intro s₃ built₃ few₃
      rw [List.nil_append, flatten_toChunks] at built₃
      exact post s₃ built₃ (by omega)

theorem meets_addFiles {rest : List File} {Q : Unit → St → Prop} (built : Built s files)
    (few : files.length + rest.length + 2 ≤ NINODES)
    (stop : (∃ file ∈ rest, (0x2f : Byte) ∈ file.name) ∨
      FSSIZE < s.freeblock + (rest.map blocksOf).sum → ∀ e, E e)
    (post : ∀ s', Built s' (files ++ rest) → Q () s') :
    Meets (forM rest (addFile ROOTINO)) s E Q := by
  induction rest generalizing s files with
  | nil =>
      rw [List.append_nil] at post
      exact meets_pure (post s built)
  | cons file rest ih =>
      rw [List.length_cons] at few
      rw [List.map_cons, List.sum_cons] at stop
      rw [List.forM_cons]
      refine meets_bind (meets_addFile built (by omega) ?_ ?_)
      · rintro (slash | full)
        · exact stop (Or.inl ⟨file, List.mem_cons_self, slash⟩)
        · exact stop (Or.inr (by omega))
      · intro s' built' few'
        refine ih built' ?_ ?_ ?_
        · rw [List.length_append, List.length_singleton]
          omega
        · rintro (⟨other, mem, slash⟩ | full)
          · exact stop (Or.inl ⟨other, List.mem_cons_of_mem _ mem, slash⟩)
          · exact stop (Or.inr (by omega))
        · intro s'' built''
          rw [List.append_assoc] at built''
          exact post s'' built''

/-! ## The first blocks -/

/-- The image is filled with zeros. -/
theorem meets_zeroes {n : ℕ} {Q : Unit → St → Prop} (atMost : n ≤ FSSIZE)
    (empty : s.img = ⟨0, fun _ _ => 0⟩) (post : Q () { s with img := ⟨n, fun _ _ => 0⟩ }) :
    Meets (forM (List.range n) fun i => wsect i fun _ => 0) s E Q := by
  induction n generalizing Q with
  | zero =>
      rw [← empty] at post
      exact meets_pure post
  | succ n ih =>
      have small : n < 2 ^ 23 := Nat.lt_of_lt_of_le (Nat.lt_of_succ_le atMost) (by decide)
      have grown : store ⟨n, fun _ _ => 0⟩ (n * BSIZE % 2 ^ 32 / BSIZE) (fun _ => 0) =
          ⟨n + 1, fun _ _ => 0⟩ := by
        rw [offset_of_small small, store, Nat.max_eq_right (Nat.le_succ n), Function.update_eq_self]
      rw [List.range_succ, List.forM_append]
      refine meets_bind (ih (by omega) ?_)
      rw [List.forM_cons]
      refine meets_bind (meets_modify ?_)
      rw [grown]
      exact meets_pure post

/-- The disk with the superblock alone. -/
def superDisk : Disk := Function.update (fun _ _ => 0) 1 superBlock

theorem inodes_superDisk (i : Fin NINODES) : inodes superDisk i = zeroDinode := by
  have bounds := iblock_bounds i
  have other : sb.iblock i ≠ 1 := by
    have lower : 1 < sb.inodestart := by decide
    omega
  rw [inodes, diskInode, superDisk, Function.update_of_ne other, getDinode_zero]

/-- At first no block has been handed out. -/
theorem ledger_superDisk : Ledger superDisk (inodes superDisk) nmeta := by
  have empty : ∀ i k, slot superDisk (inodes superDisk i) k = 0 := by
    intro i k
    rw [inodes_superDisk]
    by_cases direct : k < NDIRECT
    · rw [slot_direct _ direct]
      rfl
    · exact slot_unmapped (Nat.not_lt.mp direct) rfl
  refine ⟨le_rfl, ?_, ?_, ?_, ?_⟩
  · intro i k used
    exact absurd (empty i k) used
  · intro i k _ _ used
    exact absurd (empty i k) used
  · intro b lower upper
    omega
  · intro b above
    have other : b ≠ 1 := by
      have : 1 < nmeta := by decide
      omega
    exact Function.update_of_ne other _ _

/-- The first steps of `main`, for an image of `n` blocks. -/
theorem meets_format {n : ℕ} {Q : Unit → St → Prop} {rest : MkM Unit} (inside : 1 < n)
    (atMost : n ≤ FSSIZE) (next : Meets rest ⟨⟨n, superDisk⟩, 1, nmeta⟩ E Q) :
    Meets (do
      modify fun s => { s with freeblock := nmeta }
      forM (List.range n) fun i => wsect i fun _ => 0
      wsect 1 superBlock
      rest) start E Q := by
  refine meets_bind (meets_modify (meets_bind (meets_zeroes atMost rfl ?_)))
  exact meets_bind (meets_wsect (by decide) inside next)

/-- The root has been made, and `.` and `..` have been put into it. -/
theorem Built.init {s₁ s₂ : St} (blk : s.img.blk = superDisk)
    (table : inodes s₁.img.blk = Function.update (inodes s.img.blk) root (fresh T_DIR))
    (freeinode : s₁.freeinode = 2)
    (same : ∀ b, (b < sb.inodestart ∨ nmeta ≤ b) → s₁.img.blk b = s.img.blk b)
    (first : Kept s₁ s₂ root) (second : Kept s₂ s' root) (after : Sound s')
    (lists : Lists s'.img.blk (inodes s'.img.blk root) (rootEntries []))
    (size : (inodes s'.img.blk root).size.toNat = 16 * (rootEntries []).length) : Built s' [] := by
  have counted : s'.freeinode = 2 := by rw [second.freeinode, first.freeinode, freeinode]
  have others : ∀ j, j ≠ root → inodes s'.img.blk j = zeroDinode := by
    intro j other
    rw [second.others j other, first.others j other, table, Function.update_of_ne other, blk,
      inodes_superDisk]
  refine ⟨after, ?_, counted, ?_, ?_, ?_, lists, size, ?_⟩
  · rw [second.low 1 (by decide), first.low 1 (by decide), same 1 (Or.inl (by decide)), blk]
    exact Function.update_self _ _ _
  · intro j
    rw [counted]
    by_cases isRoot : j = root
    · subst isRoot
      rw [second.type, first.type, table, Function.update_self]
      rfl
    · have number : j.val ≠ ROOTINO := fun equal => isRoot (Fin.ext equal)
      rw [others j isRoot, typeOf, if_neg number, if_neg (by omega)]
      rfl
  · intro j lower upper
    omega
  · intro j outside
    rw [counted] at outside
    have notRoot : j ≠ root := by
      rintro rfl
      simp only [root, ROOTINO] at outside
      omega
    rw [others j notRoot]
    rfl
  · intro j notRoot
    rw [others j notRoot]
    have none : contentsOf [] j = [] := by
      rw [contentsOf]
      split_ifs <;> rfl
    rw [none]
    exact .empty rfl rfl

/-- The root directory is made, with `.` and `..`. -/
theorem meets_root {Q : Unit → St → Prop} {rest : ℕ → MkM Unit} (count : s.img.count = FSSIZE)
    (blk : s.img.blk = superDisk) (freeinode : s.freeinode = 1) (freeblock : s.freeblock = nmeta)
    (next : ∀ s', Built s' [] → s'.freeblock ≤ nmeta + 4 → Meets (rest ROOTINO) s' E Q) :
    Meets (do
      let rootino ← ialloc T_DIR
      assert (rootino = ROOTINO)
      iappend rootino (Dirent.bytes (entry rootino dot))
      iappend rootino (Dirent.bytes (entry rootino dotdot))
      rest rootino) s E Q := by
  have before : Sound s := by
    refine ⟨count, ?_, ?_⟩
    · rw [freeblock]
      decide
    · rw [blk, freeblock]
      exact ledger_superDisk
  have free : (inodes s.img.blk root).addrs = fun _ => 0 := by
    rw [blk, inodes_superDisk]
    rfl
  have roomy : ¬FSSIZE < nmeta + 2 := by decide
  have roomy' : ¬FSSIZE < nmeta + 4 := by decide
  refine meets_bind (meets_ialloc before freeinode free ?_)
  intro s₁ after₁ next₁ block₁ table same
  refine meets_bind (meets_assert (fun fails => absurd rfl fails) fun _ => ?_)
  have empty : Lists s₁.img.blk (inodes s₁.img.blk root) [] := by
    rw [table, Function.update_self]
    refine ⟨fun j _ => ⟨fun used => absurd rfl used, fun below => absurd below (Nat.not_lt_zero _)⟩,
      rfl, fun j _ used => absurd rfl used⟩
  have size₁ : (inodes s₁.img.blk root).size.toNat = 16 * ([] : List Dirent).length := by
    rw [table, Function.update_self]
    rfl
  refine meets_bind (meets_iappend_entry (i := root) after₁ empty size₁ (by decide)
    (length_strncpy dot) (fun full => absurd full (by omega)) ?_)
  intro s₂ after₂ kept₂ lists₂ size₂ few₂
  refine meets_bind (meets_iappend_entry (i := root) after₂ lists₂ size₂
    (show 1 < NDIRECT * DPB by decide) (length_strncpy dotdot)
    (fun full => absurd full (by omega)) ?_)
  intro s₃ after₃ kept₃ lists₃ size₃ few₃
  exact next s₃ (Built.init blk table next₁ same kept₂ kept₃ after₃ lists₃ size₃) (by omega)

/-! ## The image -/

/-- The bitmap block that `balloc` writes. -/
def bitmap (used : ℕ) : Block := (List.range used).foldl Bytes.setBit fun _ => 0

/-- The image that `main` leaves behind, with `n` blocks handed out or used by the file system. -/
structure Complete (img : Checker.Image) (n : ℕ) (files : List File) : Prop where
  count : img.count = FSSIZE
  super : img.blk 1 = superBlock
  bound : n ≤ FSSIZE
  ledger : Ledger img.blk (inodes img.blk) n
  types : ∀ i : Fin NINODES, (inodes img.blk i).type = typeOf (files.length + 2) i
  nlink : ∀ i : Fin NINODES, 2 ≤ i.val → i.val < files.length + 2 → (inodes img.blk i).nlink = 1
  free : ∀ i : Fin NINODES, i.val = 0 ∨ files.length + 2 ≤ i → (inodes img.blk i).addrs = fun _ => 0
  lists : Lists img.blk (inodes img.blk root) (rootEntries files)
  size : (inodes img.blk root).size.toNat = ((files.length + 2) / DPB + 1) * BSIZE
  stored : ∀ i : Fin NINODES, i ≠ root → Stores img.blk (inodes img.blk i) (contentsOf files i)
  bits : img.blk sb.bmapstart = bitmap n

/-- The size of the root is fixed, and the bitmap written. -/
theorem Built.complete (built : Built s files) {size : Word}
    (rounded : size.toNat = ((files.length + 2) / DPB + 1) * BSIZE) :
    Complete (put { s with img := { s.img with
      blk := saved s.img.blk root { inodes s.img.blk root with size := size } } } sb.bmapstart
      (bitmap s.freeblock)).img s.freeblock files := by
  generalize disk : saved s.img.blk root { inodes s.img.blk root with size := size } = blk
  have ledger : Ledger blk (inodes blk) s.freeblock := by
    rw [← disk]
    refine Ledger.saved ?_ (show _ = (inodes s.img.blk root).addrs from rfl)
    rw [Function.update_eq_self]
    exact built.sound.ledger
  have table : inodes (Function.update blk sb.bmapstart (bitmap s.freeblock)) =
      Function.update (inodes s.img.blk) root { inodes s.img.blk root with size := size } := by
    rw [← inodes_saved, disk]
    exact inodes_congr fun b _ below => Function.update_of_ne below.ne _ _
  have others : ∀ j, j ≠ root → Function.update (inodes s.img.blk) root
      { inodes s.img.blk root with size := size } j = inodes s.img.blk j :=
    fun j other => Function.update_of_ne other _ _
  have low : sb.bmapstart < nmeta := by decide
  have data : ∀ b, nmeta ≤ b →
      Function.update blk sb.bmapstart (bitmap s.freeblock) b = s.img.blk b := by
    intro b above
    have before := iblock_lt_nmeta root
    rw [Function.update_of_ne (by omega), ← disk, saved_of_ne (by omega)]
  refine ⟨built.sound.count, ?_, built.sound.bound, ?_, ?_, ?_, ?_, ?_, ?_, ?_, ?_⟩
  · have bounds := iblock_bounds root
    have early : 1 < sb.inodestart := by decide
    show Function.update blk sb.bmapstart (bitmap s.freeblock) 1 = superBlock
    rw [Function.update_of_ne (by omega), ← disk, saved_of_ne (by omega)]
    exact built.super
  · refine ledger.of_low (fun b above => Function.update_of_ne (by omega) _ _) fun i => ?_
    exact congrArg Dinode.addrs (congrFun (inodes_congr fun b _ below =>
      Function.update_of_ne below.ne _ _) i)
  · intro i
    show (inodes (Function.update blk sb.bmapstart (bitmap s.freeblock)) i).type = _
    rw [table, ← built.next, ← built.types i]
    by_cases isRoot : i = root
    · subst isRoot
      rw [Function.update_self]
    · rw [others i isRoot]
  · intro i lower upper
    show (inodes (Function.update blk sb.bmapstart (bitmap s.freeblock)) i).nlink = 1
    rw [table, others i (ne_root lower)]
    exact built.nlink i lower (by rwa [built.next])
  · intro i outside
    have notRoot : i ≠ root := by
      rintro rfl
      simp only [root, ROOTINO] at outside
      omega
    show (inodes (Function.update blk sb.bmapstart (bitmap s.freeblock)) i).addrs = _
    rw [table, others i notRoot]
    exact built.free i (by rwa [built.next])
  · show Lists (Function.update blk sb.bmapstart (bitmap s.freeblock))
      (inodes (Function.update blk sb.bmapstart (bitmap s.freeblock)) root) _
    rw [table, Function.update_self]
    refine built.lists.congr (fun _ _ => rfl) fun j below used => data _ ?_
    have inside := built.sound.ledger.inside root j
    rw [slot_direct _ below] at inside
    exact (inside used).1
  · show (inodes (Function.update blk sb.bmapstart (bitmap s.freeblock)) root).size.toNat = _
    rw [table, Function.update_self]
    exact rounded
  · intro i notRoot
    show Stores (Function.update blk sb.bmapstart (bitmap s.freeblock))
      (inodes (Function.update blk sb.bmapstart (bitmap s.freeblock)) i) _
    rw [table, others i notRoot]
    have stores := built.stored i notRoot
    have above := fun k used => data _ (built.sound.ledger.inside i k used).1
    refine ⟨stores.toHolds.congr (fun k _ => ?_) fun k _ used => above k used, stores.size⟩
    apply slot_congr
    intro mapped
    have indirect := above MAXFILE
    rw [slot_maxfile] at indirect
    exact indirect mapped
  · exact Function.update_self sb.bmapstart (bitmap s.freeblock) blk

/-- The size of the root is rounded up, and the bitmap is written. -/
theorem meets_finish {Q : Unit → St → Prop} (built : Built s files)
    (few : files.length + 2 ≤ NINODES) (post : ∀ s', Complete s'.img s'.freeblock files → Q () s') :
    Meets (do
      let din ← rinode ROOTINO
      let off := (din.size.toNat / BSIZE + 1) * BSIZE
      winode ROOTINO { din with size := BitVec.ofNat 32 off }
      balloc (← get).freeblock) s E Q := by
  have count := built.sound.count
  have bound := built.sound.bound
  have inside : sb.bmapstart < s.img.count := by
    rw [count]
    decide
  refine meets_bind (meets_rinode (i := root) count
    (meets_bind (meets_winode (i := root) count ?_)))
  refine meets_bind (meets_get (meets_bind (meets_assert ?_ fun _ => ?_)))
  · intro large
    exact absurd (bound.trans_lt (by decide)) large
  · refine meets_wsect (by decide) inside (post _ (built.complete ?_))
    have size := built.size
    rw [length_rootEntries] at size
    simp only [NINODES] at few
    simp only [BitVec.toNat_ofNat, size, DPB, BSIZE]
    omega

/-- The files have plain names and leave room in the image. -/
structure Fits (files : List File) : Prop where
  names : ∀ file ∈ files, (0x2f : Byte) ∉ file.name
  blocks : nmeta + 4 + (files.map blocksOf).sum ≤ FSSIZE

-- Otherwise the loop that fills the image is run when a goal is put into normal form.
attribute [local irreducible] Meets

/-- `main` leaves a complete image behind, and it does not stop before if the files fit. -/
theorem meets_main {Q : Unit → St → Prop} (few : files.length ≤ NINODES - 2)
    (stop : ¬Fits files → ∀ e, E e)
    (post : ∀ s', Complete s'.img s'.freeblock files → Q () s') :
    Meets (main files) start E Q := by
  have total : files.length + 2 ≤ NINODES := by
    simp only [NINODES] at few ⊢
    omega
  rw [main]
  refine meets_format (by decide) le_rfl (meets_root rfl rfl rfl rfl fun s' built fewBlocks => ?_)
  refine meets_bind (meets_addFiles built (by simpa using total) ?_ ?_)
  · rintro failure e
    refine stop (fun fits => ?_) e
    rcases failure with ⟨file, mem, slash⟩ | full
    · exact fits.names file mem slash
    · have := fits.blocks
      omega
  · intro s'' built'
    rw [List.nil_append] at built'
    exact meets_finish built' total post

theorem complete_of_main (few : files.length ≤ NINODES - 2)
    (done : main files start = .ok ((), s)) : Complete s.img s.freeblock files := by
  have meets : Meets (main files) start (fun _ => True) fun _ s =>
      Complete s.img s.freeblock files :=
    meets_main few (fun _ _ => trivial) fun _ complete => complete
  exact meets.of_ok done

theorem main_returns (few : files.length ≤ NINODES - 2) (fits : Fits files) :
    ∃ s, main files start = .ok ((), s) := by
  have meets : Meets (main files) start (fun _ => False) fun _ _ => True :=
    meets_main few (fun tooLarge => absurd fits tooLarge) fun _ _ => trivial
  rcases meets.returns (fun _ impossible => impossible) with ⟨_, s, done, _⟩
  exact ⟨s, done⟩

end Xv6.Mkfs
