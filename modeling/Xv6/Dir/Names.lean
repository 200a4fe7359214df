import Xv6.Dir.Lookup
import Xv6.Lib.Runs

/-!
# Directories as finite maps

Names go into a directory with `dirlink` and leave it with `sys_unlink`. Whatever their order,
no name is there twice, so that `dirlookup`, which stops at the first entry with a name, is the
lookup of a finite map. The `inum` of an entry is an `ushort`: what has been entered is the
number modulo 2^16.
-/

namespace Xv6.Dir

open Prog
open Relation (ReflTransGen)
open Fs (Mem Devsw Kernel)
open Slots (put find lookup firstFree Distinct withSlot)

variable {dev : Devsw} {k k' k₀ : Kernel} {dp : Fin NINODE} {name other : Mem} {inum : Word}

/-! ## The three functions -/

/-- `dirlookup` of this name finds the inode with this number, or nothing. It does not return if
every entry of the inode cache is in use. -/
def Yields (dev : Devsw) (dp : Fin NINODE) (k : Kernel) (name : Mem) (v : Option ℕ) : Prop :=
  Meets (dirlookup dev dp name) k (fun e => e = .iget ∧ ∀ i, 0 < (k.icache i).ref) fun r k' =>
    r.map (fun x => (k'.icache x.2).inum) = v

/-- The names, with the numbers they stand for. -/
def names (k : Kernel) (dp : Fin NINODE) (n : List Byte) : Option Half := lookup (entries k dp) n

theorem IsDir.yields (isDir : IsDir k dp) (name : Mem) :
    Yields dev dp k name ((names k dp (text DIRSIZ name)).map BitVec.toNat) := by
  refine isDir.meets_dirlookup.mono (fun e full => full) fun r k' looked => ?_
  have numbers := congrArg (Option.map Prod.snd) looked.found
  rw [Option.map_map, Option.map_map] at numbers
  rw [names, lookup, Option.map_map]
  exact numbers

/-- What `dirlink` enters. -/
def slotFor (name : Mem) (inum : Word) : Option (List Byte × Half) :=
  if inum.setWidth 16 = (0 : Half) then none else some (text DIRSIZ name, inum.setWidth 16)

/-- `dirlink` has come to an end. -/
structure Linked (dp : Fin NINODE) (name : Mem) (inum : Word) (k : Kernel) (r : ℤ) (k' : Kernel) :
    Prop where
  isDir : IsDir k' dp
  result : r = if names k dp (text DIRSIZ name) = none then 0 else -1
  refused : names k dp (text DIRSIZ name) ≠ none → Kept dp k k'
  entered : names k dp (text DIRSIZ name) = none →
    entries k' dp = put (entries k dp) (firstFree (entries k dp)) (slotFor name inum)

/-- `dirlink` writes the new entry to the first free slot, unless the name is there already. -/
theorem IsDir.meets_dirlink (isDir : IsDir k dp) :
    Meets (dirlink dev dp name inum) k (fun _ => True) (Linked dp name inum k) := by
  refine (isDir.meets_dirlookup.mono (fun _ _ => trivial) fun r k' looked => looked).bind
    fun r k₁ looked => ?_
  have isDir₁ := looked.kept.isDir isDir
  have found := looked.found
  cases r with
  | some x =>
      have present : names k dp (text DIRSIZ name) ≠ none := by
        intro absent
        rw [names, lookup, Option.map_eq_none_iff] at absent
        rw [absent] at found
        cases found
      refine ((looked.got x rfl).meets_iput).bind fun _ k₂ kept =>
        meets_pure ⟨kept.isDir isDir, ?_, fun _ => kept, ?_⟩
      · rw [if_neg present]
      · exact fun absent => absurd absent present
  | none =>
      have absent : names k dp (text DIRSIZ name) = none := by
        rw [eq_comm, Option.map_none, Option.map_eq_none_iff] at found
        rw [names, lookup, found]
        rfl
      have enough : (entries k₁ dp).length - 0 ≤ (k₁.icache dp).size.toNat := by
        rw [IsDir.length_entries]
        exact (Nat.sub_le _ _).trans (Nat.div_le_self _ _)
      refine meets_bind (meets_get
        ((isDir₁.meets_emptyLoop (Nat.zero_le _) enough).bind fun off k₂ scanned => ?_))
      rcases scanned with ⟨seen, rfl⟩
      rw [List.drop_zero, Nat.zero_add]
      have isDir₂ := seen.isDir isDir₁
      have same : entries k₂ dp = entries k dp := seen.entries.trans looked.kept.entries
      have length : (direntBytes (inum.setWidth 16) (strncpy DIRSIZ name)).length = direntSize := by
        rw [direntBytes, List.length_cons, List.length_cons, strncpy, Strings.length_copy]
      refine (isDir₂.meets_writeEntry ?_ length).bind fun _ k₃ written =>
        meets_pure ⟨written.1, ?_, ?_, fun _ => ?_⟩
      · rw [seen.entries]
        exact Slots.firstFree_le _
      · rw [if_pos absent]
      · exact fun present => absurd absent present
      · rw [written.2, slotOf_direntBytes, text_strncpy, same, looked.kept.entries]
        rfl

/-- The directory part of `sys_unlink` has come to an end. -/
structure Unlinked (dp : Fin NINODE) (name : Mem) (k : Kernel) (done : Bool) (k' : Kernel) :
    Prop where
  isDir : IsDir k' dp
  refused : done = false → Kept dp k k'
  removed : done = true → ∃ e v, find (text DIRSIZ name) (entries k dp) = some (e, v) ∧
    entries k' dp = put (entries k dp) e none

/-- The entry is cleared where `dirlookup` has found it. -/
theorem IsDir.meets_unlinkEntry (isDir : IsDir k dp) :
    Meets (unlinkEntry dev dp name) k (fun _ => True) (Unlinked dp name k) := by
  refine meets_ite (fun _ => meets_pure ⟨isDir, fun _ => .refl k, nofun⟩) fun _ => ?_
  refine (isDir.meets_dirlookup.mono (fun _ _ => trivial) fun r k' looked => looked).bind
    fun r k₁ looked => ?_
  have found := looked.found
  cases r with
  | none => exact meets_pure ⟨looked.kept.isDir isDir, fun _ => looked.kept, nofun⟩
  | some x =>
      rcases x with ⟨off, i⟩
      rcases Option.map_eq_some_iff.mp found.symm with ⟨⟨e, v⟩, first, same⟩
      have there := (List.getElem?_eq_some_iff.mp (Slots.getElem?_of_find first)).1
      have offset : off = direntSize * e := congrArg Prod.fst same.symm
      subst offset
      refine ((looked.kept.isDir isDir).meets_writeEntry ?_ (List.length_replicate ..)).bind
        fun _ k₂ written =>
        meets_pure ⟨written.1, nofun, fun _ => ⟨e, v, first, ?_⟩⟩
      · rw [looked.kept.entries]
        exact there.le
      · rw [written.2, slotOf_zero, looked.kept.entries]

/-! ## Runs -/

/-- A name is entered or removed, or the rest of the kernel does something. -/
inductive Step (dev : Devsw) (dp : Fin NINODE) : Kernel → Kernel → Prop
  | dirlink {k k' : Kernel} {name : Mem} {inum : Word} {r : ℤ} (nonzero : inum ≠ 0)
      (returned : dirlink dev dp name inum k = .ok (r, k')) : Step dev dp k k'
  | unlink {k k' : Kernel} {name : Mem} {done : Bool}
      (returned : unlinkEntry dev dp name k = .ok (done, k')) : Step dev dp k k'
  | other {k k' : Kernel} (kept : Kept dp k k') : Step dev dp k k'

theorem slotFor_new {x : List Byte × Half} (absent : names k dp (text DIRSIZ name) = none)
    (mem : x ∈ slotFor name inum) : lookup (entries k dp) x.1 = none := by
  rw [slotFor] at mem
  split at mem
  · cases mem
  · cases mem
    exact absent

/-- After `dirlink` the names are those before and the new one. -/
theorem Linked.names_eq {r : ℤ} (linked : Linked dp name inum k r k')
    (absent : names k dp (text DIRSIZ name) = none) :
    names k' dp = withSlot (slotFor name inum) (names k dp) := by
  change lookup _ = _
  rw [linked.entered absent]
  exact Slots.lookup_put (Slots.freeAt_firstFree _) fun x mem => slotFor_new absent mem

theorem Linked.distinct {r : ℤ} (linked : Linked dp name inum k r k')
    (distinct : Distinct (entries k dp)) :
    Distinct (entries k' dp) := by
  by_cases absent : names k dp (text DIRSIZ name) = none
  · rw [linked.entered absent]
    exact Slots.Distinct.put distinct (Slots.freeAt_firstFree _) fun x mem => slotFor_new absent mem
  · rw [(linked.refused absent).entries]
    exact distinct

/-- After a removal the names are those before without one. -/
theorem Unlinked.names_eq (unlinked : Unlinked dp name k true k')
    (distinct : Distinct (entries k dp)) :
    names k' dp = Function.update (names k dp) (text DIRSIZ name) none := by
  rcases unlinked.removed rfl with ⟨e, v, found, entries⟩
  change lookup _ = _
  rw [entries]
  exact Slots.lookup_free distinct found

/-- Without an entry the names are still distinct. -/
theorem Unlinked.distinct {done : Bool} (unlinked : Unlinked dp name k done k')
    (distinct : Distinct (entries k dp)) :
    Distinct (entries k' dp) := by
  cases done with
  | false =>
      rw [(unlinked.refused rfl).entries]
      exact distinct
  | true =>
      rcases unlinked.removed rfl with ⟨e, v, found, entries⟩
      rw [entries]
      exact Slots.Distinct.free distinct
        (List.getElem?_eq_some_iff.mp (Slots.getElem?_of_find found)).1

/-- A directory without double names stays one. -/
theorem directory_of_run (isDir : IsDir k₀ dp) (distinct : Distinct (entries k₀ dp))
    (run : ReflTransGen (Step dev dp) k₀ k) : IsDir k dp ∧ Distinct (entries k dp) := by
  refine Runs.invariant_of_run (I := fun k => IsDir k dp ∧ Distinct (entries k dp)) ?_ run
    ⟨isDir, distinct⟩
  rintro k k' step ⟨isDir, distinct⟩
  cases step with
  | dirlink _ returned =>
      have linked := isDir.meets_dirlink.of_ok returned
      exact ⟨linked.isDir, linked.distinct distinct⟩
  | unlink returned =>
      have unlinked := isDir.meets_unlinkEntry.of_ok returned
      exact ⟨unlinked.isDir, unlinked.distinct distinct⟩
  | other kept =>
      refine ⟨kept.isDir isDir, ?_⟩
      rw [kept.entries]
      exact distinct

/-- `dirlookup` of a name yields in `k'` what it yields in `k`. -/
def SameYield (dev : Devsw) (dp : Fin NINODE) (k k' : Kernel) (name : Mem) : Prop :=
  ∃ v, Yields dev dp k name v ∧ Yields dev dp k' name v

theorem sameYield (isDir : IsDir k dp) (isDir' : IsDir k' dp)
    (same : names k' dp (text DIRSIZ name) = names k dp (text DIRSIZ name)) :
    SameYield dev dp k k' name := by
  have before : Yields dev dp k' name _ := isDir'.yields name
  rw [same] at before
  exact ⟨_, isDir.yields name, before⟩

/-- In every state of a run the directory is a finite map from names. -/
theorem finite_map (isDir : IsDir k₀ dp) (distinct : Distinct (entries k₀ dp))
    (run : ReflTransGen (Step dev dp) k₀ k) :
    Distinct (entries k dp) ∧
    (∀ name inum r k', inum ≠ 0 → dirlink dev dp name inum k = .ok (r, k') →
      (r = -1 ∨ r = 0) ∧
      (r = -1 ↔ text DIRSIZ name ∈ Slots.keys (entries k dp)) ∧
      (r = -1 → entries k' dp = entries k dp) ∧
      (r = 0 → Yields dev dp k' name
        (if inum.toNat % 2 ^ 16 = 0 then none else some (inum.toNat % 2 ^ 16))) ∧
      ∀ other, text DIRSIZ other ≠ text DIRSIZ name → SameYield dev dp k k' other) ∧
    ∀ name done k', unlinkEntry dev dp name k = .ok (done, k') →
      (done = true → Yields dev dp k' name none) ∧
      ∀ other, text DIRSIZ other ≠ text DIRSIZ name → SameYield dev dp k k' other := by
  rcases directory_of_run isDir distinct run with ⟨isDir, distinct⟩
  refine ⟨distinct, fun name inum r k' _ returned => ?_, fun name done k' returned => ?_⟩
  · have linked := isDir.meets_dirlink.of_ok returned
    have result := linked.result
    by_cases absent : names k dp (text DIRSIZ name) = none
    · rw [if_pos absent] at result
      subst result
      have after := linked.names_eq absent
      refine ⟨.inr rfl, ?_, (by rintro ⟨⟩), fun _ => ?_, fun other apart => ?_⟩
      · exact iff_of_false (by decide) (Slots.lookup_eq_none.mp absent)
      · have yields : Yields dev dp _ name _ := linked.isDir.yields name
        rw [after, slotFor] at yields
        by_cases zero : inum.setWidth 16 = (0 : Half)
        · rw [if_pos zero, withSlot, Option.elim_none, absent] at yields
          have number : inum.toNat % 2 ^ 16 = 0 := congrArg BitVec.toNat zero
          rw [if_pos number]
          exact yields
        · rw [if_neg zero, withSlot, Option.elim_some, Function.update_self] at yields
          have number : ¬inum.toNat % 2 ^ 16 = 0 :=
            fun number => zero (BitVec.eq_of_toNat_eq number)
          rw [if_neg number]
          exact yields
      · refine sameYield isDir linked.isDir ?_
        rw [after, slotFor]
        split
        · rfl
        · exact Function.update_of_ne apart _ _
    · rw [if_neg absent] at result
      subst result
      have kept := linked.refused absent
      refine ⟨.inl rfl, iff_of_true rfl ?_, fun _ => kept.entries, (by rintro ⟨⟩),
        fun other _ => ?_⟩
      · by_contra missing
        exact absent (Slots.lookup_eq_none.mpr missing)
      · refine sameYield isDir linked.isDir ?_
        rw [names, names, kept.entries]
  · have unlinked := isDir.meets_unlinkEntry.of_ok returned
    cases done with
    | true =>
        have after := unlinked.names_eq distinct
        refine ⟨fun _ => ?_, fun other apart => ?_⟩
        · have yields : Yields dev dp _ name _ := unlinked.isDir.yields name
          rw [after, Function.update_self] at yields
          exact yields
        · refine sameYield isDir unlinked.isDir ?_
          rw [after, Function.update_of_ne apart]
    | false =>
        refine ⟨(by rintro ⟨⟩), fun other _ => sameYield isDir unlinked.isDir ?_⟩
        rw [names, names, (unlinked.refused rfl).entries]

/-- A kernel that uses an empty directory. -/
def emptyDir : Kernel where
  fs := Fs.emptySt
  icache := fun i =>
    if i = 0 then ⟨Fs.emptyInode Fs.T_DIR 2, 1, true, true⟩
      else ⟨Fs.emptyInode 0 0, 0, false, false⟩

theorem isDir_emptyDir : IsDir emptyDir 0 where
  owned := by
    refine Fs.Owned.of_empty Fs.layout_mkfs Fs.low_emptyDisk ?_ (fun _ _ _ => rfl) fun _ => rfl
    decide
  type := rfl
  whole := rfl
  held := by decide

/-- The name "a" is entered, then "b". -/
theorem finite_map_two : ∃ k₁ k₂, dirlink Fs.noDevices 0 (pointer [0x61]) 2 emptyDir = .ok (0, k₁) ∧
    dirlink Fs.noDevices 0 (pointer [0x62]) 3 k₁ = .ok (0, k₂) ∧
      Yields Fs.noDevices 0 k₂ (pointer [0x62]) (some 3) ∧
    SameYield Fs.noDevices 0 k₁ k₂ (pointer [0x61]) := by
  have outcome : (((do
      let x ← dirlink Fs.noDevices 0 (pointer [0x61]) 2
      let y ← dirlink Fs.noDevices 0 (pointer [0x62]) 3
      return (x, y)) emptyDir).toOption.map Prod.fst) = some (0, 0) := by decide +kernel
  rcases ok_of_evaluated outcome with ⟨⟨_, k₃⟩, returned, rfl⟩
  rcases ok_of_bind returned with ⟨x, k₁, first, returned⟩
  rcases ok_of_bind returned with ⟨y, k₂, second, returned⟩
  rcases returned with ⟨⟩
  have run : ReflTransGen (Step Fs.noDevices 0) emptyDir k₁ := .single (.dirlink (by decide) first)
  rcases (finite_map isDir_emptyDir List.nodup_nil run).2.1 _ 3 0 k₃ (by decide) second with
    ⟨_, _, _, yields, others⟩
  exact ⟨k₁, k₃, first, second, yields rfl, others _ (by decide)⟩

/-- The number 65536 is entered as 0, which is a free entry. -/
theorem dirlink_65536 :
    ∃ k', IsDir emptyDir 0 ∧ Distinct (entries emptyDir 0) ∧ (65536 : Word) ≠ 0 ∧
    dirlink Fs.noDevices 0 (pointer [0x61]) 65536 emptyDir = .ok (0, k') ∧
    ¬Yields Fs.noDevices 0 k' (pointer [0x61]) (some 65536) := by
  have outcome : (((do
      let r ← dirlink Fs.noDevices 0 (pointer [0x61]) 65536
      let found ← dirlookup Fs.noDevices 0 (pointer [0x61])
      return (r, found)) emptyDir).toOption.map Prod.fst) = some (0, none) := by decide +kernel
  rcases ok_of_evaluated outcome with ⟨⟨_, k₃⟩, returned, rfl⟩
  rcases ok_of_bind returned with ⟨r, k', linked, returned⟩
  rcases ok_of_bind returned with ⟨found, k₂, looked, returned⟩
  cases returned
  refine ⟨k', isDir_emptyDir, List.nodup_nil, by decide, linked, fun yields => ?_⟩
  cases yields.of_ok looked

end Xv6.Dir
