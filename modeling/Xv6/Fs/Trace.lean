import Xv6.Fs.Saved

/-!
# The calls of the file system

A function of the file system leaves a list of calls to the buffer cache and the
log. A call of `bwrite` goes to the disk at once. It is quiet if it changes
neither the disk nor what readers see. Every function but `writei` calls
`log_write` only, so its calls are quiet; `writei` is quiet where it writes no
block, or writes bytes that are on disk already.
-/

namespace Xv6.Fs

open Prog

/-- What readers see after a list of calls. -/
def after (view : Disk) : List Call → Disk
  | [] => view
  | .logWrite b data :: calls => after (Function.update view b data) calls
  | .bwrite b data :: calls => after (Function.update view b data) calls
  | .bread _ :: calls => after view calls
  | .brelse _ :: calls => after view calls

/-- Each `bwrite` writes what readers see and what is on disk. -/
def QuietCalls (disk : Disk) : Disk → List Call → Prop
  | _, [] => True
  | view, .logWrite b data :: calls => QuietCalls disk (Function.update view b data) calls
  | view, .bwrite b data :: calls => view b = data ∧ disk b = data ∧ QuietCalls disk view calls
  | view, .bread _ :: calls => QuietCalls disk view calls
  | view, .brelse _ :: calls => QuietCalls disk view calls

/-- The calls made between two states are quiet. -/
def Traced (disk : Disk) (s s' : St) : Prop :=
  ∃ calls, s'.calls = s.calls ++ calls ∧ s'.blk = after s.blk calls ∧
    QuietCalls disk s.blk calls

section Calls

variable {disk view : Disk} {calls calls' : List Call}

theorem after_append : after view (calls ++ calls') = after (after view calls) calls' := by
  induction calls generalizing view with
  | nil => rfl
  | cons call calls ih => cases call <;> exact ih

theorem quietCalls_append (first : QuietCalls disk view calls)
    (second : QuietCalls disk (after view calls) calls') :
    QuietCalls disk view (calls ++ calls') := by
  induction calls generalizing view with
  | nil => exact second
  | cons call calls ih =>
      cases call with
      | bread b => exact ih first second
      | brelse b => exact ih first second
      | logWrite b data => exact ih first second
      | bwrite b data =>
          refine ⟨first.1, first.2.1, ih first.2.2 ?_⟩
          rw [after, ← first.1, Function.update_eq_self] at second
          exact second

end Calls

namespace Traced

variable {disk : Disk} {s s' s'' : St}

theorem refl : Traced disk s s :=
  ⟨[], (List.append_nil _).symm, rfl, trivial⟩

theorem trans (first : Traced disk s s') (second : Traced disk s' s'') : Traced disk s s'' := by
  rcases first with ⟨calls, recorded, view, quiet⟩
  rcases second with ⟨calls', recorded', view', quiet'⟩
  refine ⟨calls ++ calls', ?_, ?_, ?_⟩
  · rw [recorded', recorded, List.append_assoc]
  · rw [view', view, after_append]
  · rw [view] at quiet'
    exact quietCalls_append quiet quiet'

end Traced

/-! ## Functions that log their writes -/

/-- The function calls `bwrite` only with contents that are there already. -/
def Quiet {α : Type} (m : FsM α) : Prop :=
  ∀ disk s, Meets m s (fun _ => True) fun _ s' => Traced disk s s'

section Rules

variable {α β : Type} {m m' : FsM α} {f : α → FsM β}

theorem quiet_pure (a : α) : Quiet (pure a : FsM α) :=
  fun _ _ => meets_pure Traced.refl

theorem quiet_throw (e : Panic) : Quiet (throw e : FsM α) :=
  fun _ _ => meets_throw trivial

theorem quiet_get : Quiet (get : FsM St) :=
  fun _ _ => meets_get Traced.refl

theorem quiet_bind (first : Quiet m) (next : ∀ a, Quiet (f a)) : Quiet (m >>= f) := by
  intro disk s
  refine (first disk s).bind fun a s' traced => ?_
  exact (next a disk s').mono (fun _ stop => stop) fun _ _ traced' => traced.trans traced'

theorem quiet_ite {c : Prop} [Decidable c] (yes : Quiet m) (no : Quiet m') :
    Quiet (if c then m else m') :=
  fun disk s => meets_ite (fun _ => yes disk s) fun _ => no disk s

theorem quiet_bread (b : ℕ) : Quiet (bread b) := by
  intro disk s
  unfold bread
  refine meets_ite (fun _ => meets_bind (meets_throw trivial)) fun _ => ?_
  refine meets_bind (meets_modify ?_)
  refine meets_bind (meets_get ?_)
  exact meets_pure ⟨[.bread b], rfl, rfl, trivial⟩

theorem quiet_brelse (b : ℕ) : Quiet (brelse b) :=
  fun _ _ => ⟨[.brelse b], rfl, rfl, trivial⟩

theorem quiet_logWrite (b : ℕ) (data : Block) : Quiet (logWrite b data) :=
  fun _ _ => ⟨[.logWrite b data], rfl, rfl, trivial⟩

end Rules

theorem quiet_readsb : Quiet readsb := by
  refine quiet_bind (quiet_bread 1) fun data => quiet_bind ?_ fun _ => quiet_brelse 1
  exact fun _ _ => meets_modify ⟨[], (List.append_nil _).symm, rfl, trivial⟩

theorem quiet_bzero (b : ℕ) : Quiet (bzero b) :=
  quiet_bind (quiet_bread b) fun _ => quiet_bind (quiet_logWrite b _) fun _ => quiet_brelse b

/-- The scan for a free block writes nothing past the log. -/
theorem quiet_ballocFrom (b fuel : ℕ) : Quiet (ballocFrom b fuel) := by
  induction fuel generalizing b with
  | zero => exact quiet_throw _
  | succ fuel ih =>
      refine quiet_bind quiet_get fun s => quiet_ite ?_ (quiet_throw _)
      refine quiet_bind (quiet_bread _) fun data => ?_
      split
      · exact quiet_bind (quiet_logWrite _ _) fun _ => quiet_bind (quiet_brelse _) fun _ =>
          quiet_bind (quiet_bzero _) fun _ => quiet_pure _
      · exact quiet_bind (quiet_brelse _) fun _ => ih _

theorem quiet_balloc : Quiet balloc :=
  quiet_bind quiet_get fun _ => quiet_ballocFrom _ _

theorem quiet_bfree (b : ℕ) : Quiet (bfree b) := by
  refine quiet_bind quiet_readsb fun _ => quiet_bind quiet_get fun _ => ?_
  refine quiet_bind (quiet_bread _) fun _ => ?_
  refine quiet_ite (quiet_bind (quiet_throw _) fun _ => ?_) ?_
  all_goals exact quiet_bind (quiet_logWrite _ _) fun _ => quiet_brelse _

theorem quiet_iupdate (ip : Inode) : Quiet (iupdate ip) :=
  quiet_bind quiet_get fun _ => quiet_bind (quiet_bread _) fun _ =>
    quiet_bind (quiet_logWrite _ _) fun _ => quiet_brelse _

theorem quiet_loadAddr (ip : Inode) (i : ℕ) : Quiet (loadAddr ip i) :=
  quiet_ite (quiet_bind quiet_balloc fun _ => quiet_pure _) (quiet_pure _)

theorem quiet_loadEntry (indirect e : ℕ) : Quiet (loadEntry indirect e) := by
  refine quiet_bind (quiet_bread _) fun data => quiet_ite ?_ ?_
  · exact quiet_bind quiet_balloc fun _ => quiet_bind (quiet_logWrite _ _) fun _ =>
      quiet_bind (quiet_brelse _) fun _ => quiet_pure _
  · exact quiet_bind (quiet_brelse _) fun _ => quiet_pure _

theorem quiet_bmap (ip : Inode) (bn : ℕ) : Quiet (bmap ip bn) := by
  refine quiet_ite ?_ (quiet_ite ?_ (quiet_throw _))
  · exact quiet_bind (quiet_loadAddr _ _) fun _ => quiet_pure _
  · exact quiet_bind (quiet_loadAddr _ _) fun _ => quiet_bind (quiet_loadEntry _ _) fun _ =>
      quiet_pure _

theorem quiet_readTag (ip : Inode) (block : Word) : Quiet (readTag ip block) := by
  unfold readTag
  split
  · exact quiet_pure _
  · refine quiet_ite ?_ (quiet_pure _)
    exact quiet_bind (quiet_bread _) fun _ => quiet_bind (quiet_brelse _) fun _ => quiet_pure _

/-- Reading writes nothing. -/
theorem quiet_readiLoop (n fuel tot off : ℕ) (ip : Inode) (dst : Mem) :
    Quiet (readiLoop n fuel tot off ip dst) := by
  induction fuel generalizing tot off ip dst with
  | zero => exact quiet_pure _
  | succ fuel ih =>
      refine quiet_ite ?_ (quiet_pure _)
      refine quiet_bind (quiet_bmap _ _) fun _ => quiet_bind (quiet_bmap _ _) fun _ => ?_
      refine quiet_bind (quiet_bread _) fun _ => quiet_ite ?_ ?_
      · exact quiet_bind (quiet_readTag _ _) fun _ => quiet_pure _
      · exact quiet_bind (quiet_brelse _) fun _ => ih _ _ _ _

theorem quiet_readi (dev : Devsw) (ip : Inode) (dst : Mem) (off n : Word) :
    Quiet (readi dev ip dst off n) := by
  refine quiet_ite ?_ (quiet_ite (quiet_pure _) (quiet_readiLoop _ _ _ _ _ _))
  split
  · exact quiet_pure _
  · exact quiet_pure _

theorem quiet_freeDirect (fuel i : ℕ) (ip : Inode) : Quiet (freeDirect fuel i ip) := by
  induction fuel generalizing i ip with
  | zero => exact quiet_pure _
  | succ fuel ih => exact quiet_ite (quiet_bind (quiet_bfree _) fun _ => ih _ _) (ih _ _)

theorem quiet_freeIndirect (data : Block) (fuel j : ℕ) : Quiet (freeIndirect data fuel j) := by
  induction fuel generalizing j with
  | zero => exact quiet_pure _
  | succ fuel ih => exact quiet_ite (quiet_bind (quiet_bfree _) fun _ => ih _) (ih _)

theorem quiet_itrunc (ip : Inode) : Quiet (itrunc ip) := by
  have finish : ∀ ip' : Inode, Quiet (do
      iupdate { ip' with size := 0 }
      return { ip' with size := 0 }) :=
    fun _ => quiet_bind (quiet_iupdate _) fun _ => quiet_pure _
  refine quiet_bind (quiet_freeDirect _ _ _) fun ip' => quiet_ite ?_ (finish ip')
  refine quiet_bind (quiet_bread _) fun _ => quiet_bind (quiet_freeIndirect _ _ _) fun _ => ?_
  exact quiet_bind (quiet_brelse _) fun _ => quiet_bind (quiet_bfree _) fun _ => finish _

theorem quiet_freeInode (ip : Inode) : Quiet (freeInode ip) :=
  quiet_bind (quiet_itrunc ip) fun _ => quiet_bind (quiet_iupdate _) fun _ => quiet_pure _

theorem quiet_iallocFrom (type : Half) (fuel m : ℕ) : Quiet (iallocFrom type fuel m) := by
  induction fuel generalizing m with
  | zero => exact quiet_throw _
  | succ fuel ih =>
      refine quiet_bind quiet_get fun s => quiet_ite ?_ (quiet_throw _)
      refine quiet_bind (quiet_bread _) fun _ => quiet_ite ?_ ?_
      · exact quiet_bind (quiet_logWrite _ _) fun _ => quiet_bind (quiet_brelse _) fun _ =>
          quiet_pure _
      · exact quiet_bind (quiet_brelse _) fun _ => ih _

theorem quiet_iallocDisk (type : Half) : Quiet (iallocDisk type) :=
  quiet_bind quiet_get fun _ => quiet_iallocFrom _ _ _

theorem quiet_loadInode (m : ℕ) : Quiet (loadInode m) := by
  refine quiet_bind quiet_get fun _ => quiet_bind (quiet_bread _) fun _ => ?_
  refine quiet_bind (quiet_brelse _) fun _ => ?_
  exact quiet_ite (quiet_bind (quiet_throw _) fun _ => quiet_pure _) (quiet_pure _)

/-! ## `writei` -/

/--
A write into allocated blocks: their new contents are on disk already, and so is
the indirect block with its tags.
-/
structure InPlace (disk : Disk) (sb : Superblock) (blk : Disk) (ip : Inode) (off n : ℕ)
    (src : Mem) :
    Prop where
  owned : Owned sb blk (single ip)
  mapped : ∀ k, Touches off n k → k < MAXFILE ∧ slot blk ip.toDinode k ≠ 0
  onDisk : ∀ k b, Touches off n k → ref blk ip.toDinode k = some b →
    disk b = overwrite (blk b) k off n src
  tags : ip.type = T_CHECKED → ∀ k b, NDIRECT ≤ k → Touches off n k →
    ref blk ip.toDinode k = some b →
      slot blk ip.toDinode k = BitVec.ofNat 32 b + checksum (disk b) <<< 24 ∧
      disk (ip.addr NDIRECT).toNat = blk (ip.addr NDIRECT).toNat

section InPlace

variable {disk : Disk} {s : St} {ip : Inode} {bn b off n m : ℕ} {src : Mem}

/-! The rules for single calls, with the trace that they leave. -/

/-- A block that is read is what the trace says. -/
theorem bread_traced (disk : Disk) {Q : Block → St → Prop} (inRange : b < FSSIZE)
    (post : ∀ calls, Traced disk s { s with calls := calls } →
      Q (s.blk b) { s with calls := calls }) :
    Meets (bread b) s (fun _ => True) Q := by
  have both := (quiet_bread b disk s).and (meets_bread (E := fun _ => True)
    (Q := fun data s' => data = s.blk b ∧ ∃ calls, s' = { s with calls := calls }) inRange
    fun calls => ⟨rfl, calls, rfl⟩)
  refine both.mono (fun _ _ => trivial) fun data s' facts => ?_
  rcases facts with ⟨traced, rfl, calls, rfl⟩
  exact post calls traced

theorem brelse_traced (disk : Disk) {Q : Unit → St → Prop}
    (post : ∀ calls, Traced disk s { s with calls := calls } → Q () { s with calls := calls }) :
    Meets (brelse b) s (fun _ => True) Q :=
  post _ ⟨[.brelse b], rfl, rfl, trivial⟩

theorem logWrite_traced (disk : Disk) {Q : Unit → St → Prop} {data : Block}
    (post : ∀ calls, Traced disk s { s with blk := Function.update s.blk b data, calls := calls } →
      Q () { s with blk := Function.update s.blk b data, calls := calls }) :
    Meets (logWrite b data) s (fun _ => True) Q :=
  post _ ⟨[.logWrite b data], rfl, rfl, trivial⟩

theorem bwrite_traced (disk : Disk) {Q : Unit → St → Prop} {data : Block} (seen : s.blk b = data)
    (onDisk : disk b = data)
    (post : ∀ calls, Traced disk s { s with calls := calls } → Q () { s with calls := calls }) :
    Meets (bwrite b data) s (fun _ => True) Q := by
  have same : Function.update s.blk b data = s.blk := by rw [← seen, Function.update_eq_self]
  refine meets_modify ?_
  rw [same]
  refine post _ ⟨[.bwrite b data], rfl, ?_, seen, onDisk, trivial⟩
  exact same.symm

/-- `bmap` of a block that is there writes nothing. -/
theorem bmap_traced (disk : Disk) {Q : Word × Inode → St → Prop}
    (own : Owned s.sb s.blk (single ip)) (inFile : bn < MAXFILE)
    (mapped : slot s.blk ip.toDinode bn ≠ 0)
    (post : ∀ calls, Traced disk s { s with calls := calls } →
      Q (mask ip.type (slot s.blk ip.toDinode bn), ip) { s with calls := calls }) :
    Meets (bmap ip bn) s (fun _ => True) Q := by
  have both := (quiet_bmap ip bn disk s).and (bmap_mapped_meets (i := ()) (E := fun _ => True)
    (Q := fun r s' => r = (mask ip.type (slot s.blk ip.toDinode bn), ip) ∧
      ∃ calls, s' = { s with calls := calls }) own inFile mapped fun calls => ⟨rfl, calls, rfl⟩)
  refine both.mono (fun _ _ => trivial) fun r s' facts => ?_
  rcases facts with ⟨traced, rfl, calls, rfl⟩
  exact post calls traced

/-- One iteration of `writei` writes what it moves into the block. -/
theorem move_eq_overwrite {data : Block} (length : m = min n (BSIZE - off % BSIZE)) :
    Bytes.move data (off % BSIZE) m src = overwrite data (off / BSIZE) off n src := by
  funext x
  have inBlock := x.isLt
  have position := Nat.div_add_mod' off BSIZE
  simp only [Bytes.move, overwrite, BSIZE] at *
  split_ifs
  · congr 1
    omega
  · omega
  · omega
  · rfl

/-- The tag of a block in the indirect block changes nothing if it is the old one. -/
theorem writeTag_quiet {data : Block} (own : Owned s.sb s.blk (single ip)) (inFile : bn < MAXFILE)
    (refers : ref s.blk ip.toDinode bn = some b)
    (tags : ip.type = T_CHECKED → NDIRECT ≤ bn →
      slot s.blk ip.toDinode bn = BitVec.ofNat 32 b + checksum data <<< 24 ∧
      disk (ip.addr NDIRECT).toNat = s.blk (ip.addr NDIRECT).toNat) :
    Meets (writeTag ip (BitVec.ofNat 32 b) data) s (fun _ => True) fun _ s' =>
      Traced disk s s' ∧ ∃ calls, s' = { s with calls := calls } := by
  refine meets_ite (fun checked => ?_) fun _ => meets_pure ⟨Traced.refl, s.calls, rfl⟩
  rcases Nat.lt_or_ge bn NDIRECT with direct | indirect
  · rw [findDirect_eq_some (i := ()) own checked inFile refers direct]
    exact meets_pure ⟨Traced.refl, s.calls, rfl⟩
  · rcases tags checked indirect with ⟨tag, onDisk⟩
    have mapped := indirect_mapped indirect (ref_eq_some.mp refers).1
    have inRange := own.lt_fssize (i := ()) (ref_maxfile s.blk mapped)
    -- The entry carries the tag already, so the indirect block stays as it is.
    have same : tagEntry (s.blk (ip.addr NDIRECT).toNat) (BitVec.ofNat 32 b)
        (BitVec.ofNat 32 b + checksum data <<< 24) = s.blk (ip.addr NDIRECT).toNat := by
      rw [tagEntry, findIndirect_eq_some (i := ()) own checked inFile refers indirect mapped]
      rw [slot_entry _ indirect inFile mapped] at tag
      rw [← tag]
      exact Bytes.putWord_getWord _ _
    rw [findDirect_eq_none (i := ()) own checked inFile refers indirect]
    refine meets_bind (bread_traced disk inRange.2 fun calls first => ?_)
    rw [same]
    refine meets_bind (bwrite_traced disk rfl onDisk fun calls second => ?_)
    refine meets_bind (brelse_traced disk fun calls third => ?_)
    exact meets_pure ⟨(first.trans second).trans third, calls, rfl⟩

/-- The rest of the range after one iteration of `writei`. -/
theorem InPlace.next {sb : Superblock} {blk : Disk} {ip' : Inode} {v : Word}
    (inPlace : InPlace disk sb blk ip off n src) (length : m = min n (BSIZE - off % BSIZE))
    (inFile : off / BSIZE < MAXFILE) (refers : ref blk ip.toDinode (off / BSIZE) = some b)
    (stored : Stored sb blk (Function.update blk b (disk b)) (single ip) () ip' (off / BSIZE) v
      (disk b)) :
    InPlace disk sb (Function.update blk b (disk b)) ip' (off + m) (n - m)
      (fun j => src (m + j)) := by
  have later : ∀ k, Touches (off + m) (n - m) k →
      Touches off n k ∧ k ≠ off / BSIZE ∧ off + m ≤ k * BSIZE := by
    rintro k ⟨x, lower, upper, rfl⟩
    have position := Nat.div_add_mod' off BSIZE
    have position' := Nat.div_add_mod' x BSIZE
    simp only [BSIZE] at *
    refine ⟨⟨x, by omega, by omega, rfl⟩, by omega, by omega⟩
  have slots : ∀ k, k ≠ off / BSIZE →
      slot (Function.update blk b (disk b)) ip'.toDinode k = slot blk ip.toDinode k := by
    intro k other
    rw [stored.slots k, if_neg other]
  have type : ip'.type = ip.type := by rw [stored.fields]
  have own := inPlace.owned
  refine ⟨?_, ?_, ?_, ?_⟩
  · have owned := stored.owned
    rwa [update_single] at owned
  · intro k touch
    rcases later k touch with ⟨earlier, other, _⟩
    rw [slots k other]
    exact inPlace.mapped k earlier
  · intro k c touch refers'
    rcases later k touch with ⟨earlier, other, start⟩
    rw [stored.refs k] at refers'
    have isData := (inPlace.mapped k earlier).1
    rw [stored.data () k c isData.ne (fun same => other same.2) refers',
      inPlace.onDisk k c earlier refers']
    funext x
    simp only [overwrite]
    split_ifs
    · congr 1
      omega
    · omega
    · omega
    · rfl
  · intro checked k c indirect touch refers'
    rcases later k touch with ⟨earlier, other, _⟩
    rw [stored.refs k] at refers'
    rw [type] at checked
    rcases inPlace.tags checked k c indirect earlier refers' with ⟨tag, onDisk⟩
    have mapped := indirect_mapped indirect (ref_eq_some.mp refers').1
    have sameIndirect : ip'.addr NDIRECT = ip.addr NDIRECT := by
      have slot := slots MAXFILE inFile.ne'
      rwa [slot_maxfile, slot_maxfile] at slot
    have distinct : (ip.addr NDIRECT).toNat ≠ b := by
      intro same
      have both := own.distinct () MAXFILE () (off / BSIZE) b
        (by rw [← same]; exact ref_maxfile blk mapped) refers
      exact inFile.ne' both.2
    rw [slots k other, sameIndirect, Function.update_of_ne distinct]
    exact ⟨tag, onDisk⟩

/-- The loop of `writei` over bytes that are there already is quiet. -/
theorem writeiLoop_quiet {fuel tot : ℕ} (enough : n - tot ≤ fuel)
    (inPlace : InPlace disk s.sb s.blk ip off (n - tot) fun j => src (tot + j)) :
    Meets (writeiLoop src n fuel tot off ip) s (fun _ => True) fun _ s' => Traced disk s s' := by
  induction fuel generalizing s ip tot off with
  | zero => exact meets_pure Traced.refl
  | succ fuel ih =>
      refine meets_ite (fun more => ?_) fun _ => meets_pure Traced.refl
      have touch : Touches off (n - tot) (off / BSIZE) := ⟨off, le_rfl, by omega, rfl⟩
      rcases inPlace.mapped _ touch with ⟨inFile, mapped⟩
      have own := inPlace.owned
      obtain ⟨b, address⟩ : ∃ b, b = mask ip.type (slot s.blk ip.toDinode (off / BSIZE)) := ⟨_, rfl⟩
      have refers : ref s.blk ip.toDinode (off / BSIZE) = some b.toNat := by
        rw [ref_eq_some, target, if_neg inFile.ne, address]
        exact ⟨mapped, rfl⟩
      have number : BitVec.ofNat 32 b.toNat = b := by
        rw [BitVec.ofNat_toNat, BitVec.setWidth_eq]
      refine meets_bind (bmap_traced disk own inFile mapped fun calls first => ?_)
      refine meets_bind (bmap_traced disk (s := { s with calls := calls }) own inFile mapped
        fun calls second => ?_)
      simp only [← address]
      have inRange := own.lt_fssize (i := ()) refers
      refine meets_bind (bread_traced disk inRange.2 fun calls third => ?_)
      have moved : Bytes.move (s.blk b.toNat) (off % BSIZE) (chunk n tot off)
          (fun j => src (tot + j)) = disk b.toNat := by
        rw [inPlace.onDisk _ _ touch refers]
        exact move_eq_overwrite rfl
      simp only [moved]
      have tags : ip.type = T_CHECKED → NDIRECT ≤ off / BSIZE →
          slot s.blk ip.toDinode (off / BSIZE) =
            BitVec.ofNat 32 b.toNat + checksum (disk b.toNat) <<< 24 ∧
          disk (ip.addr NDIRECT).toNat = s.blk (ip.addr NDIRECT).toNat :=
        fun checked indirect => inPlace.tags checked _ _ indirect touch refers
      have both := (writeTag_quiet (s := { s with calls := calls }) own inFile refers tags).and
        (writeTag_meets (s := { s with calls := calls }) (E := fun _ => True) (i := ())
          (Q := fun ip' s' => ∃ v,
            Retagged s.sb s.blk s'.blk (single ip) () ip' (off / BSIZE) v ∧
            v ≠ 0 ∧ target ip.type (off / BSIZE) v = b.toNat)
          rfl own inFile refers (number.trans address) ?_)
      · rw [number] at both
        refine meets_bind (both.mono (fun _ _ => trivial) ?_)
        rintro ip' s' ⟨⟨fourth, calls, rfl⟩, v, retagged, nonzero, same⟩
        have stored := retagged.store own inFile.ne refers nonzero same (disk b.toNat)
        refine meets_bind (logWrite_traced disk fun calls fifth => ?_)
        refine meets_bind (bwrite_traced disk (Function.update_self _ _ _) rfl
          fun calls sixth => ?_)
        refine meets_bind (brelse_traced disk fun calls seventh => ?_)
        have rest := inPlace.next (m := chunk n tot off) rfl inFile refers stored
        have remaining : n - (tot + chunk n tot off) = n - tot - chunk n tot off := by omega
        refine (ih (s := { s with
            blk := Function.update s.blk b.toNat (disk b.toNat)
            calls := calls }) ?_ ?_).mono
          (fun _ stop => stop) fun _ _ last => ?_
        · have := chunk_pos off more
          omega
        · rw [remaining]
          simpa only [Nat.add_assoc] using rest
        · exact first.trans (second.trans (third.trans (fourth.trans (fifth.trans
            (sixth.trans (seventh.trans last))))))
      · intro ip' blk' calls v retagged plain tag
        exact ⟨v, retagged, target_of_tag own inFile refers plain tag⟩

end InPlace

/-- `writei` leaves the disk as it is: it writes no block, or what is there already. -/
def QuietWrite (disk : Disk) (s : St) (ip : Inode) (src : Mem) (off n : Word) : Prop :=
  ip.type = T_DEV ∨ rejects ip.size.toNat off.toNat n.toNat ∨ n = 0 ∨
    InPlace disk s.sb s.blk ip off.toNat n.toNat src

theorem writei_quiet {disk : Disk} {s : St} {dev : Devsw} {ip : Inode} {src : Mem} {off n : Word}
    (quiet : QuietWrite disk s ip src off n) :
    Meets (writei dev ip src off n) s (fun _ => True) fun _ s' => Traced disk s s' := by
  by_cases isDev : ip.type = T_DEV
  · unfold writei
    rw [if_pos isDev]
    split
    · exact meets_pure Traced.refl
    · exact meets_pure Traced.refl
  by_cases rejected : rejects ip.size.toNat off.toNat n.toNat
  · rw [Meets, writei_of_rejects isDev rejected]
    exact Traced.refl
  have loop : Meets (writeiLoop src n.toNat n.toNat 0 off.toNat ip) s (fun _ => True)
      fun _ s' => Traced disk s s' := by
    rcases quiet with device | refused | empty | inPlace
    · exact absurd device isDev
    · exact absurd refused rejected
    · rw [empty]
      exact meets_pure Traced.refl
    · refine writeiLoop_quiet (by omega) ?_
      simpa only [Nat.sub_zero, Nat.zero_add] using inPlace
  unfold writei
  rw [if_neg isDev]
  refine meets_ite (fun _ => meets_pure Traced.refl) fun _ => ?_
  refine meets_ite (fun _ => meets_pure Traced.refl) fun _ => ?_
  refine loop.bind fun r s' traced => meets_ite (fun _ => ?_) fun _ => meets_pure traced
  refine (quiet_iupdate _ disk s').bind fun _ s'' traced' => ?_
  exact meets_pure (traced.trans traced')

end Xv6.Fs
