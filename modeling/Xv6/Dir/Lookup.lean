import Mathlib.Data.List.GetD
import Xv6.Dir.Table
import Xv6.Fs.Checksum

/-!
# Looking up, inserting and removing names

The functions on directories are the operations of tables. Each scans the directory by file
offsets with its own loop.
-/

namespace Xv6.Dir

open Prog
open Fs (Mem Devsw Kernel Owned contents single byteAt T_DIR)
open Slots (put find lookup firstFree)

variable {dev : Devsw} {k k' k'' : Kernel} {dp : Fin NINODE} {name : Mem} {e fuel : ℕ}
  {panic : Stop} {E : Stop → Prop}

/-- Cache entry `dp` is a directory of whole entries, whose blocks are allocated, and somebody has a
reference to it. -/
structure IsDir (k : Kernel) (dp : Fin NINODE) : Prop where
  owned : Owned k.fs.sb k.fs.blk (single (k.icache dp).toInode)
  type : (k.icache dp).type = T_DIR
  whole : (k.icache dp).size.toNat % direntSize = 0
  held : 0 < (k.icache dp).ref

/-- The entries of the directory. -/
def entries (k : Kernel) (dp : Fin NINODE) : Slots (List Byte) Half :=
  table (contents k.fs.blk (k.icache dp).toDinode)

/-- Nothing has happened to the contents of the disk, nor to the inode `dp`. -/
structure Kept (dp : Fin NINODE) (k k' : Kernel) : Prop where
  sb : k'.fs.sb = k.fs.sb
  blk : k'.fs.blk = k.fs.blk
  inode : (k'.icache dp).toInode = (k.icache dp).toInode
  held : 0 < (k.icache dp).ref → 0 < (k'.icache dp).ref

namespace Kept

theorem refl (k : Kernel) : Kept dp k k := ⟨rfl, rfl, rfl, id⟩

theorem trans (first : Kept dp k k') (second : Kept dp k' k'') : Kept dp k k'' where
  sb := second.sb.trans first.sb
  blk := second.blk.trans first.blk
  inode := second.inode.trans first.inode
  held := fun held => second.held (first.held held)

theorem isDir (kept : Kept dp k k') (isDir : IsDir k dp) : IsDir k' dp where
  owned := by
    rw [kept.sb, kept.blk, kept.inode]
    exact isDir.owned
  type := by
    rw [kept.inode]
    exact isDir.type
  whole := by
    rw [kept.inode]
    exact isDir.whole
  held := kept.held isDir.held

theorem entries (kept : Kept dp k k') : entries k' dp = Dir.entries k dp := by
  rw [Dir.entries, kept.blk, kept.inode, Dir.entries]

end Kept

/-- Only reads have happened. -/
structure Read (k k' : Kernel) : Prop where
  sb : k'.fs.sb = k.fs.sb
  blk : k'.fs.blk = k.fs.blk
  icache : k'.icache = k.icache

namespace Read

theorem refl (k : Kernel) : Read k k := ⟨rfl, rfl, rfl⟩

theorem trans (first : Read k k') (second : Read k' k'') : Read k k'' :=
  ⟨second.sb.trans first.sb, second.blk.trans first.blk, second.icache.trans first.icache⟩

theorem kept (read : Read k k') : Kept dp k k' where
  sb := read.sb
  blk := read.blk
  inode := by rw [read.icache]
  held := by
    rw [read.icache]
    exact id

theorem isDir (read : Read k k') (isDir : IsDir k dp) : IsDir k' dp := read.kept.isDir isDir

theorem entries (read : Read k k') : entries k' dp = Dir.entries k dp := read.kept.entries

end Read

theorem meets_onFs {α : Type} {m : Fs.FsM α} {Q : α → Kernel → Prop}
    (meets : Meets m k.fs (fun e => E (.fs e)) fun a fs => Q a { k with fs := fs }) :
    Meets (onFs m) k E Q :=
  meets_zoom meets

namespace IsDir

theorem regular (isDir : IsDir k dp) :
    (k.icache dp).type ≠ Fs.T_DEV ∧ (k.icache dp).type ≠ Fs.T_CHECKED := by
  rw [isDir.type]
  decide

theorem length_entries (k : Kernel) (dp : Fin NINODE) :
    (entries k dp).length = (k.icache dp).size.toNat / direntSize := by
  rw [entries, length_table, Fs.length_contents]

/-- An entry below the size is read. -/
theorem meets_readEntry (isDir : IsDir k dp) {x : Option (List Byte × Half)}
    (there : (entries k dp)[e]? = some x) :
    Meets (readEntry dev dp (direntSize * e) panic) k E fun de k' => slotOf de = x ∧ Read k k' := by
  have inside : e < (k.icache dp).size.toNat / direntSize := by
    rw [← length_entries]
    exact (List.getElem?_eq_some_iff.mp there).1
  have size := isDir.owned.size_le ()
  have fits : direntSize * e + direntSize ≤ (k.icache dp).size.toNat := by
    simp only [direntSize] at *
    omega
  simp only [MAXFILE, NINDIRECT, NDIRECT, BSIZE] at size
  have off : (BitVec.ofNat 32 (direntSize * e)).toNat = direntSize * e := by
    rw [BitVec.toNat_ofNat, Nat.mod_eq_of_lt]
    omega
  have n : ((direntSize : ℕ) : Word).toNat = direntSize := rfl
  refine meets_bind (meets_get (meets_bind (meets_onFs ?_)))
  refine Fs.readi_meets (i := ()) isDir.owned isDir.regular ?_ ?_ fun calls => ?_
  · rw [off]
    exact (Nat.le_add_right _ _).trans fits
  · rw [off, n]
    simp only [direntSize] at *
    omega
  · have all : min direntSize ((k.icache dp).size.toNat - direntSize * e) = direntSize :=
      Nat.min_eq_left (Nat.le_sub_of_add_le' fits)
    rw [off, n, all]
    have same : ({ k with fs := { k.fs with calls := calls } } : Kernel).set dp
        { k.icache dp with toInode := (k.icache dp).toInode } =
          { k with fs := { k.fs with calls := calls } } := by
      rw [Kernel.set, Function.update_eq_self]
    refine meets_bind (meets_modify
      (meets_ite (fun short => absurd rfl short) fun _ => meets_pure ⟨?_, ?_⟩))
    · rw [entries, getElem?_table, if_pos (by rwa [Fs.length_contents])] at there
      refine Eq.trans (slotOf_congr fun j less => ?_) (Option.some.inj there)
      refine (if_pos ⟨Nat.zero_le j, less⟩).trans ?_
      rw [Nat.sub_zero, entryAt, List.getD_eq_getElem?_getD,
        Fs.getElem?_contents, if_pos ((Nat.add_lt_add_left less _).trans_le fits), Option.getD_some]
    · rw [same]
      exact ⟨rfl, rfl, rfl⟩

/-- The loop of `dirlookup` goes through the table. -/
theorem meets_lookupLoop (isDir : IsDir k dp) (enough : (entries k dp).length - e ≤ fuel) :
    Meets (lookupLoop dev dp name fuel (direntSize * e)) k E fun r k' => Read k k' ∧
      r = (find (text DIRSIZ name) ((entries k dp).drop e)).map fun x =>
        (direntSize * (e + x.1), x.2) := by
  have size := length_entries k dp
  have whole := isDir.whole
  induction fuel generalizing e k with
  | zero =>
      have all : (entries k dp).drop e = [] :=
        List.drop_of_length_le (Nat.sub_eq_zero_iff_le.mp (Nat.le_zero.mp enough))
      rw [all]
      exact meets_pure ⟨.refl k, rfl⟩
  | succ fuel ih =>
      refine meets_bind (meets_get (meets_ite (fun more => ?_) fun last => ?_))
      · have inside : e < (entries k dp).length := by
          simp only [direntSize] at *
          omega
        rw [List.drop_eq_getElem_cons inside]
        have next : ∀ k', Read k k' →
          Meets (lookupLoop dev dp name fuel (direntSize * e + direntSize)) k' E
            fun r k'' => Read k k'' ∧ r =
              ((find (text DIRSIZ name) ((entries k dp).drop (e + 1))).map fun x =>
                (x.1 + 1, x.2)).map
                fun x => (direntSize * (e + x.1), x.2) := by
          intro k' seen
          have rest := ih (seen.isDir isDir) (e := e + 1) (by rw [seen.entries]; omega)
            (length_entries k' dp)
            (seen.isDir isDir).whole
          rw [seen.entries] at rest
          refine rest.mono (fun _ => id) fun r k'' found => ⟨seen.trans found.1, found.2.trans ?_⟩
          rw [Option.map_map]
          refine congrArg (Option.map · _) (funext fun x => ?_)
          simp only [Function.comp_apply, Prod.mk.injEq, and_true]
          ring
        refine (isDir.meets_readEntry (List.getElem?_eq_getElem inside)).bind fun de k' read => ?_
        rcases read with ⟨slot, seen⟩
        rw [← slot, slotOf]
        refine meets_ite (fun free => ?_) fun used => ?_
        · rw [if_pos free]
          exact next k' seen
        · rw [if_neg used, find]
          refine meets_ite (fun same => ?_) fun other => ?_
          · rw [if_pos (namecmp_eq_zero.mp same).symm]
            exact meets_pure ⟨seen, rfl⟩
          · rw [if_neg fun same => other (namecmp_eq_zero.mpr same.symm)]
            exact next k' seen
      · have all : (entries k dp).drop e = [] := by
          apply List.drop_of_length_le
          simp only [direntSize] at *
          omega
        rw [all]
        exact meets_pure ⟨.refl k, rfl⟩

/-- The loop of `dirlink` finds a free slot. -/
theorem meets_emptyLoop (isDir : IsDir k dp) (begin : e ≤ (entries k dp).length)
    (enough : (entries k dp).length - e ≤ fuel) :
    Meets (emptyLoop dev dp fuel (direntSize * e)) k E fun off k' => Read k k' ∧
      off = direntSize * (e + firstFree ((entries k dp).drop e)) := by
  have size := length_entries k dp
  have whole := isDir.whole
  have ended : (entries k dp).length ≤ e →
      direntSize * e = direntSize * (e + firstFree ((entries k dp).drop e)) := by
    intro last
    rw [List.drop_of_length_le last]
    rfl
  induction fuel generalizing e k with
  | zero => exact meets_pure ⟨.refl k, ended (Nat.sub_eq_zero_iff_le.mp (Nat.le_zero.mp enough))⟩
  | succ fuel ih =>
      refine meets_bind (meets_get (meets_ite (fun more => ?_) fun last => ?_))
      · have inside : e < (entries k dp).length := by
          simp only [direntSize] at *
          omega
        refine (isDir.meets_readEntry (List.getElem?_eq_getElem inside)).bind fun de k' read => ?_
        rcases read with ⟨slot, seen⟩
        rw [List.drop_eq_getElem_cons inside, ← slot, slotOf]
        refine meets_ite (fun free => ?_) fun used => ?_
        · rw [if_pos free]
          exact meets_pure ⟨seen, rfl⟩
        · rw [if_neg used, firstFree]
          have rest := ih (seen.isDir isDir) (e := e + 1) (by rw [seen.entries]; exact inside)
            (by rw [seen.entries]; omega) (length_entries k' dp) (seen.isDir isDir).whole
            (fun last => by rw [List.drop_of_length_le last]; rfl)
          rw [seen.entries] at rest
          refine rest.mono (fun _ => id) fun off k'' found => ⟨seen.trans found.1, found.2.trans ?_⟩
          ring
      · refine meets_pure ⟨.refl k, ended ?_⟩
        simp only [direntSize] at *
        omega

/-- An entry is written. -/
theorem meets_writeEntry {de : List Byte} (isDir : IsDir k dp) (inside : e ≤ (entries k dp).length)
    (length : de.length = direntSize) :
    Meets (writeEntry dev dp (direntSize * e) de panic) k (fun _ => True) fun _ k' => IsDir k' dp ∧
      entries k' dp = put (entries k dp) e (slotOf (getDirent (pointer de))) := by
  rw [length_entries] at inside
  have whole := isDir.whole
  have size := isDir.owned.size_le ()
  have below : direntSize * e ≤ (k.icache dp).size.toNat := by
    simp only [direntSize] at *
    omega
  simp only [MAXFILE, NINDIRECT, NDIRECT, BSIZE] at size
  have off : (BitVec.ofNat 32 (direntSize * e)).toNat = direntSize * e := by
    rw [BitVec.toNat_ofNat, Nat.mod_eq_of_lt]
    omega
  have n : ((direntSize : ℕ) : Word).toNat = direntSize := rfl
  refine meets_bind (meets_get (meets_bind (meets_onFs ?_)))
  by_cases rejected : Fs.rejects (k.icache dp).size.toNat (BitVec.ofNat 32 (direntSize * e)).toNat
    ((direntSize : ℕ) : Word).toNat
  · refine meets_ok (Fs.writei_of_rejects isDir.regular.1 rejected) ?_
    have short : (-1 : ℤ) ≠ direntSize := by decide
    exact meets_bind (meets_modify
      (meets_ite (fun _ => meets_throw trivial) fun full => absurd short full))
  · refine Fs.writei_meets (i := ()) rfl isDir.owned isDir.regular.1 rejected (fun _ => trivial)
      fun ip' blk' calls done => ?_
    simp only [Fs.rejects, not_or, Nat.not_lt, Nat.not_le] at rejected
    rw [off, n] at done rejected ⊢
    have owned := done.owned_flush rejected.1 rejected.2.2
    have contents := done.contents_eq isDir.owned rejected.1 rejected.2.2
    have bytes : (List.range direntSize).map (pointer de) = de := by
      refine List.ext_getElem (by simp [length]) fun j inside inside' => ?_
      rw [List.getElem_map, List.getElem_range]
      exact List.getD_eq_getElem _ _ inside'
    rw [Fs.update_single] at owned
    rw [bytes] at contents
    have grown : (Fs.extend ip' _).size.toNat = _ := Fs.size_extend rejected.2.2
    rw [done.size_eq] at grown
    change _ = max (k.icache dp).size.toNat _ at grown
    refine meets_bind (meets_modify
      (meets_ite (fun short => absurd rfl short) fun _ => meets_pure ⟨?_, ?_⟩))
    · refine ⟨?_, ?_, ?_, ?_⟩
      all_goals simp only [Kernel.set, Function.update_self]
      · exact owned
      · rw [Fs.type_extend, done.type_eq, isDir.type]
      · rw [grown]
        simp only [direntSize] at *
        omega
      · exact isDir.held
    · rw [entries, Kernel.set]
      simp only [Function.update_self]
      rw [contents]
      exact table_splice (by rwa [Fs.length_contents]) length (by rwa [Fs.length_contents])

end IsDir

/-! ## References -/

/-- `iget` has found or made the cache entry `i` of an inode. -/
structure Got (dp : Fin NINODE) (inum : ℕ) (k k' : Kernel) (i : Fin NINODE) :
    Prop extends Kept dp k k' where
  inum : (k'.icache i).inum = inum
  shared : i = dp → 2 ≤ (k'.icache i).ref
  stays : (k'.icache i).valid = true → 2 ≤ (k'.icache i).ref

/-- `iget` finds an entry of the cache, or there is none free. -/
theorem meets_iget {inum : ℕ} (held : 0 < (k.icache dp).ref) :
    Meets (iget inum) k (fun e => e = .iget ∧ ∀ i, 0 < (k.icache i).ref) fun i k' =>
      Got dp inum k k' i := by
  refine meets_bind (meets_get ?_)
  split
  case h_1 i hit =>
    have found := List.find?_some hit
    simp only [decide_eq_true_eq] at found
    refine meets_bind (meets_modify (f := fun _ => _) (meets_pure ?_))
    by_cases same : dp = i
    · subst same
      refine ⟨⟨rfl, rfl, ?_, fun _ => ?_⟩, ?_, fun _ => ?_, fun _ => ?_⟩
      all_goals simp only [Kernel.set, Function.update_self]
      · exact Nat.succ_pos _
      · exact found.2
      · exact Nat.succ_le_succ held
      · exact Nat.succ_le_succ held
    · refine ⟨⟨rfl, rfl, ?_, fun _ => ?_⟩, ?_, fun self => absurd self.symm same, fun _ => ?_⟩
      all_goals simp only [Kernel.set, Function.update_self, Function.update_of_ne same]
      · exact held
      · exact found.2
      · exact Nat.succ_le_succ found.1
  case h_2 =>
    split
    case h_1 i unused =>
      have free := List.find?_some unused
      simp only [decide_eq_true_eq] at free
      have same : dp ≠ i := by
        rintro rfl
        omega
      refine meets_bind (meets_modify (f := fun _ => _) (meets_pure ?_))
      refine ⟨⟨rfl, rfl, ?_, fun _ => ?_⟩, ?_, fun self => absurd self.symm same, fun valid => ?_⟩
      all_goals simp only [Kernel.set, Function.update_self, Function.update_of_ne same] at *
      · exact held
      · cases valid
    case h_2 none =>
      refine meets_throw ⟨rfl, fun i => Nat.pos_of_ne_zero ?_⟩
      simpa using List.find?_eq_none.mp none i (List.mem_finRange i)

/-- What `iget` has just returned is not freed. -/
theorem Got.meets_iput {inum : ℕ} {i : Fin NINODE} (got : Got dp inum k k' i) :
    Meets (iput i) k' (fun _ => True) fun _ k'' => Kept dp k k'' := by
  have stays : ¬((k'.icache i).valid = true ∧ (k'.icache i).nlink = 0 ∧ (k'.icache i).ref = 1) := by
    rintro ⟨valid, _, one⟩
    have := got.stays valid
    omega
  refine meets_bind (meets_get ?_)
  rw [Kernel.iput]
  by_cases locked : (k'.icache i).locked = true
  · rw [if_pos locked]
    exact meets_throw trivial
  · rw [if_neg locked, if_neg stays]
    refine meets_modify (f := fun _ => _) (got.toKept.trans ⟨rfl, rfl, ?_, fun held => ?_⟩)
    all_goals by_cases same : dp = i
    · subst same
      simp only [Kernel.set, Function.update_self]
    · simp only [Kernel.set, Function.update_of_ne same]
    · subst same
      simp only [Kernel.set, Function.update_self]
      exact Nat.sub_pos_of_lt (got.shared rfl)
    · simp only [Kernel.set, Function.update_of_ne same]
      exact held

/-! ## The functions -/

/-- `dirlookup` has come to an end. -/
structure Looked (dp : Fin NINODE) (name : Mem) (k : Kernel) (r : Option (ℕ × Fin NINODE))
    (k' : Kernel) : Prop where
  kept : Kept dp k k'
  found : r.map (fun x => (x.1, (k'.icache x.2).inum)) =
    (find (text DIRSIZ name) (entries k dp)).map fun x => (direntSize * x.1, x.2.toNat)
  got : ∀ x ∈ r, Got dp (k'.icache x.2).inum k k' x.2

/-- `dirlookup` finds the first entry of the name, and nothing else changes. -/
theorem IsDir.meets_dirlookup (isDir : IsDir k dp) :
    Meets (dirlookup dev dp name) k (fun e => e = .iget ∧ ∀ i, 0 < (k.icache i).ref)
      (Looked dp name k) := by
  refine meets_bind (meets_get (meets_ite (fun other => absurd isDir.type other) fun _ => ?_))
  refine meets_bind (meets_get ?_)
  have enough : (entries k dp).length - 0 ≤ (k.icache dp).size.toNat := by
    rw [length_entries]
    exact (Nat.sub_le _ _).trans (Nat.div_le_self _ _)
  refine (isDir.meets_lookupLoop enough).bind fun r k₁ found => ?_
  rcases found with ⟨seen, found⟩
  rw [List.drop_zero] at found
  cases r with
  | none =>
      refine meets_pure ⟨seen.kept, ?_, nofun⟩
      rw [eq_comm, Option.map_eq_none_iff] at found
      rw [found]
      rfl
  | some x =>
      refine ((meets_iget (seen.kept.held isDir.held)).mono (fun e full => ?_) fun i k₂ got =>
        got).bind
        fun i k₂ got => meets_pure ?_
      · rwa [seen.icache] at full
      have all : Got dp x.2.toNat k k₂ i :=
        ⟨seen.kept.trans got.toKept, got.inum, got.shared, got.stays⟩
      refine ⟨all.toKept, ?_, ?_⟩
      · rcases Option.map_eq_some_iff.mp found.symm with ⟨y, first, same⟩
        rw [first]
        cases same
        rw [Option.map_some, Option.map_some, all.inum, Nat.zero_add]
      · rintro _ ⟨⟩
        exact ⟨all.toKept, rfl, all.shared, all.stays⟩

end Xv6.Dir
