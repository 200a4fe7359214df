import Xv6.Fs.Checksum

/-!
# Reading checksummed files

What `readi` does on a checksummed file that was built by `writei`. The loop
ends in its first iteration: it compares the checksum of the block at `off` with
a tag and returns 1 or -1, without copying. So a range is read back only if it
is empty, or if it is a single byte that `dst` happens to hold already and the
comparison succeeds.
-/

namespace Xv6.Fs

open Prog

/-- The contents that a sequence of writes gives to a file. -/
def specWrites : List Write → List Byte → List Byte
  | [], file => file
  | w :: ws, file =>
      specWrites ws
        (if rejects file.length w.off.toNat w.n.toNat then file
        else splice file w.off.toNat ((List.range w.n.toNat).map w.src))

/-- `writei` to a T_CHECKED file writes its bytes. -/
theorem writei_contents {dev : Devsw} {s : St} {ip : Inode} (checked : Checked s.sb s.blk ip)
    (w : Write) :
    Meets (writei dev ip w.src w.off w.n) s (fun _ => True) fun r s' =>
      contents s'.blk r.2.toDinode = specWrites [w] (contents s.blk ip.toDinode) := by
  have notDev : ip.type ≠ T_DEV := by
    rw [checked.type]
    decide
  simp only [specWrites, length_contents]
  by_cases rejected : rejects ip.size.toNat w.off.toNat w.n.toNat
  · rw [if_pos rejected]
    simp only [Meets, writei_of_rejects notDev rejected]
  · rw [if_neg rejected]
    refine writei_meets (i := ()) rfl checked.owned notDev rejected (fun _ => trivial) ?_
    intro ip' blk' calls done
    simp only [rejects, not_or, Nat.not_lt, Nat.not_le] at rejected
    exact done.contents_eq checked.owned rejected.1 rejected.2.2

/-- After any number of calls the file has what they have written. -/
theorem runWrites_contents {dev : Devsw} {ws : List Write} {s s' : St} {ip ip' : Inode}
    (checked : Checked s.sb s.blk ip) (run : runWrites dev ws ip s = .ok (ip', s')) :
    contents s'.blk ip'.toDinode = specWrites ws (contents s.blk ip.toDinode) := by
  induction ws generalizing s ip with
  | nil =>
      cases run
      rfl
  | cons w ws ih =>
      rcases ok_of_bind run with ⟨r, s₁, first, rest⟩
      rw [ih ((writei_checked checked w).of_ok first).1 rest,
        (writei_contents checked w).of_ok first]
      rfl

/-! ## One iteration of `readi` -/

section Read

variable {s : St} {ip : Inode} {bn b : ℕ}

/-- The comparison that `readi` makes for block `bn`, whose exclusive-or is `sum`. -/
def Accepts (bn : ℕ) (sum : Byte) : Prop :=
  if bn ≤ NDIRECT then sum.toNat < 128 else sum = 0

instance (bn : ℕ) (sum : Byte) : Decidable (Accepts bn sum) :=
  inferInstanceAs (Decidable (if bn ≤ NDIRECT then sum.toNat < 128 else sum = 0))

/-- The tag is found with the address, but for the blocks behind the indirect one. -/
theorem readTag_meets {E : Panic → Prop} {Q : Word → St → Prop} (own : Owned s.sb s.blk (single ip))
    (type : ip.type = T_CHECKED) (inFile : bn < MAXFILE)
    (refers : ref s.blk ip.toDinode bn = some b)
    (post : ∀ calls, Q (if bn ≤ NDIRECT then slot s.blk ip.toDinode bn else 0)
      { s with calls := calls }) :
    Meets (readTag ip (BitVec.ofNat 32 b)) s E Q := by
  rcases Nat.lt_or_ge bn NDIRECT with direct | indirect
  · rw [readTag, findDirect_eq_some (i := ()) own type inFile refers direct]
    rw [if_pos direct.le, slot_direct _ direct] at post
    exact meets_pure (post s.calls)
  · have mapped := indirect_mapped indirect (ref_eq_some.mp refers).1
    have onDisk := own.lt_fssize (i := ()) (ref_maxfile s.blk mapped)
    rw [readTag, findDirect_eq_none (i := ()) own type inFile refers indirect]
    refine meets_ite (fun _ => ?_) fun unmapped => absurd mapped unmapped
    refine meets_bind (meets_bread onDisk.2 fun calls => ?_)
    refine meets_bind (meets_brelse fun calls => ?_)
    refine meets_pure ?_
    have first : slot s.blk ip.toDinode NDIRECT =
        Bytes.getWord (s.blk (ip.addr NDIRECT).toNat) 0 :=
      slot_entry s.blk le_rfl (by decide) mapped
    have found := slot_match (i := ()) own type inFile refers (k := NDIRECT) (by decide)
    rw [first] at found
    simp only [found]
    by_cases isFirst : NDIRECT = bn
    · subst isFirst
      rw [if_pos le_rfl, first] at post
      rw [if_pos rfl]
      exact post calls
    · rw [if_neg (by omega)] at post
      rw [if_neg isFirst]
      exact post calls

/-- The comparison that `readi` makes when block `bn`, tagged with `tag`, has become one whose
exclusive-or is `sum`. -/
def Passes (bn : ℕ) (tag sum : Byte) : Prop :=
  if bn ≤ NDIRECT then sum.signExtend 32 = tag.setWidth 32 else sum = 0

instance (bn : ℕ) (tag sum : Byte) : Decidable (Passes bn tag sum) :=
  inferInstanceAs (Decidable (if bn ≤ NDIRECT then sum.signExtend 32 = tag.setWidth 32
    else sum = 0))

/-- `readi` on a range that is not empty; the tag of its first block was computed from `old`. -/
theorem readi_tagged_meets {dev : Devsw} {dst : Mem} {off n : Word} {old : Block}
    (owned : Owned s.sb s.blk (single ip)) (type : ip.type = T_CHECKED)
    (fits : off.toNat + n.toNat < 2 ^ 32) (inside : off.toNat < ip.size.toNat)
    (nonempty : 0 < n.toNat) (refers : ref s.blk ip.toDinode (off.toNat / BSIZE) = some b)
    (small : b < 2 ^ 24)
    (value : slot s.blk ip.toDinode (off.toNat / BSIZE) = BitVec.ofNat 32 b + checksum old <<< 24) :
    Meets (readi dev ip dst off n) s (fun _ => False) fun r _ =>
      r.dst = dst ∧
        r.ret = if Passes (off.toNat / BSIZE) (xorBytes old) (xorBytes (s.blk b)) then 1
          else -1 := by
  have notDev : ip.type ≠ T_DEV := by
    rw [type]
    decide
  have accepted : ¬(off > ip.size ∨ off + n < off) := by
    rw [rejects_iff]
    omega
  rcases owned.allocated_div (i := ()) inside with ⟨inFile, mapped⟩
  have block : mask ip.type (slot s.blk ip.toDinode (off.toNat / BSIZE)) = BitVec.ofNat 32 b := by
    rw [type, value, mask_tagged small]
  have number : (BitVec.ofNat 32 b).toNat = b := by
    rw [BitVec.toNat_ofNat, Nat.mod_eq_of_lt (by omega)]
  have onDisk := (owned.lt_fssize (i := ()) refers).2
  rw [readi, if_neg notDev, if_neg accepted]
  simp only [toNat_clip (not_or.mp accepted).1 (not_or.mp accepted).2]
  obtain ⟨m, length⟩ := Nat.exists_eq_succ_of_ne_zero
    (show min n.toNat (ip.size.toNat - off.toNat) ≠ 0 by omega)
  rw [length]
  refine meets_ite (fun _ => ?_) fun empty => absurd (Nat.succ_pos m) empty
  refine meets_bind (bmap_mapped_meets (i := ()) owned inFile mapped fun calls => ?_)
  refine meets_bind (bmap_mapped_meets (s := { s with calls := calls }) (i := ()) owned
    inFile mapped fun calls => ?_)
  simp only [block, number]
  refine meets_bind (meets_bread onDisk fun calls => ?_)
  refine meets_ite (fun _ => ?_) fun plain => absurd type plain
  refine meets_bind (readTag_meets (s := { s with calls := calls }) owned type
    inFile refers fun calls => ?_)
  refine meets_pure ⟨rfl, ?_⟩
  have compared : checksum (s.blk b) =
      (if off.toNat / BSIZE ≤ NDIRECT then slot s.blk ip.toDinode (off.toNat / BSIZE)
        else 0) >>> 24 ↔
        Passes (off.toNat / BSIZE) (xorBytes old) (xorBytes (s.blk b)) := by
    rw [Passes]
    split
    · rw [value, shift_tagged small, checksum_eq]
    · rw [show (0 : Word) >>> 24 = 0 from rfl, checksum_eq_zero]
  simp only [compared]

/-- An intact block. -/
theorem passes_self (bn : ℕ) (data : Block) :
    Passes bn (xorBytes data) (xorBytes data) ↔ Accepts bn (xorBytes data) := by
  rw [Passes, Accepts]
  split
  · rw [← checksum_eq, checksum_eq_setWidth]
  · rfl

/-- `readi` of a T_CHECKED file compares the first block only, and copies nothing. -/
theorem readi_checked_meets {dev : Devsw} {dst : Mem} {off n : Word}
    (checked : Checked s.sb s.blk ip) (fits : off.toNat + n.toNat < 2 ^ 32)
    (inside : off.toNat < ip.size.toNat) (nonempty : 0 < n.toNat)
    (refers : ref s.blk ip.toDinode (off.toNat / BSIZE) = some b) :
    Meets (readi dev ip dst off n) s (fun _ => False) fun r _ =>
      r.dst = dst ∧
        r.ret = if Accepts (off.toNat / BSIZE) (xorBytes (s.blk b)) then 1 else -1 := by
  have below : off.toNat / BSIZE * BSIZE < ip.size.toNat :=
    (Nat.div_mul_le_self _ _).trans_lt inside
  rcases checked.tag_eq below refers with ⟨value, small⟩
  have meets : Meets (readi dev ip dst off n) s _ _ :=
    readi_tagged_meets checked.owned checked.type fits inside nonempty refers small value
  simpa only [passes_self] using meets

/-- An empty range is read without a comparison. -/
theorem readi_empty {dev : Devsw} {dst : Mem} {off n : Word} (type : ip.type = T_CHECKED)
    (inside : off.toNat ≤ ip.size.toNat) (fits : off.toNat + n.toNat < 2 ^ 32)
    (empty : min n.toNat (ip.size.toNat - off.toNat) = 0) :
    readi dev ip dst off n s = .ok (⟨0, dst, ip⟩, s) := by
  have notDev : ip.type ≠ T_DEV := by
    rw [type]
    decide
  have accepted : ¬(off > ip.size ∨ off + n < off) := by
    rw [rejects_iff]
    omega
  rw [readi, if_neg notDev, if_neg accepted]
  simp only [toNat_clip (not_or.mp accepted).1 (not_or.mp accepted).2, empty]
  rfl

end Read

/-! ## Reading back -/

/-- `readi` returns the length of the range inside `file` and copies its bytes. -/
def ReadsBack (dev : Devsw) (s : St) (ip : Inode) (file : List Byte) (dst : Mem) (off n : Word) :
    Prop :=
  ∃ r s', readi dev ip dst off n s = .ok (r, s') ∧
    r.ret = min n.toNat (file.length - off.toNat) ∧
    r.dst = dst.store ((file.drop off.toNat).take n.toNat)

/-- The range is empty, or it is one byte, already in `dst`, of a block that `readi` accepts. -/
def ReadableRange (s : St) (ip : Inode) (file : List Byte) (dst : Mem) (off n : Word) : Prop :=
  min n.toNat (file.length - off.toNat) = 0 ∨
    min n.toNat (file.length - off.toNat) = 1 ∧ file[off.toNat]? = some (dst 0) ∧
      ∃ b, ref s.blk ip.toDinode (off.toNat / BSIZE) = some b ∧
        Accepts (off.toNat / BSIZE) (xorBytes (s.blk b))

/-- A buffer stays as it was if the byte is there already. -/
theorem store_singleton {dst : Mem} {bytes : List Byte} (length : bytes.length = 1) :
    dst.store bytes = dst ↔ bytes[0]? = some (dst 0) := by
  obtain ⟨byte, rfl⟩ := List.length_eq_one_iff.mp length
  constructor
  · intro same
    have first := congrFun same 0
    simpa [Mem.store] using first
  · intro first
    have value : byte = dst 0 := by simpa using first
    funext j
    cases j with
    | zero => simpa [Mem.store] using value
    | succ j => simp [Mem.store]

/-- After any writes to a new T_CHECKED file, `readi` gives the bytes back exactly where it comes to
its `memmove`: where it returns before that, nothing has been copied. -/
theorem readsBack_iff_readable {dev : Devsw} {ws : List Write} {s s' : St} {ip ip' : Inode}
    (layout : Layout s.sb) (low : ∀ b < s.sb.dataStart, marked s.sb s.blk b = true)
    (inum : ip.inum < s.sb.ninodes) (type : ip.type = T_CHECKED)
    (addrs : ∀ k ≤ NDIRECT, ip.addr k = 0) (size : ip.size = 0)
    (run : runWrites dev ws ip s = .ok (ip', s')) {dst : Mem} {off n : Word}
    (inside : off.toNat ≤ (specWrites ws []).length) (fits : off.toNat + n.toNat < 2 ^ 32) :
    ReadsBack dev s' ip' (specWrites ws []) dst off n ↔
      ReadableRange s' ip' (specWrites ws []) dst off n := by
  have start := Checked.of_empty layout low inum type addrs size
  have checked := (runWrites_checked start run).1
  have file := runWrites_contents start run
  have nothing : contents s.blk ip.toDinode = [] := by
    rw [contents, size]
    rfl
  rw [nothing] at file
  have length : (specWrites ws []).length = ip'.size.toNat := by
    rw [← file, length_contents]
  generalize specWrites ws [] = bytes at *
  by_cases empty : min n.toNat (bytes.length - off.toNat) = 0
  · have returned : readi dev ip' dst off n s' = .ok (⟨0, dst, ip'⟩, s') :=
      readi_empty checked.type (by omega) fits (by rw [← length]; exact empty)
    have none : (bytes.drop off.toNat).take n.toNat = [] := by
      rw [← List.length_eq_zero_iff, List.length_take, List.length_drop]
      exact empty
    refine ⟨fun _ => Or.inl empty, fun _ => ⟨_, _, returned, ?_, ?_⟩⟩
    · simp [empty]
    · rw [none]
      rfl
  · have within : off.toNat < ip'.size.toNat := by omega
    rcases checked.owned.allocated_div (i := ()) within with ⟨inFile, mapped⟩
    obtain ⟨b, refers⟩ : ∃ b, ref s'.blk ip'.toDinode (off.toNat / BSIZE) = some b :=
      ⟨_, ref_eq_some.mpr ⟨mapped, rfl⟩⟩
    rcases (readi_checked_meets checked fits within (by omega) refers).returns
      (fun _ impossible => impossible) with ⟨r, s'', returned, sameDst, ret⟩
    have first : ((bytes.drop off.toNat).take n.toNat)[0]? = bytes[off.toNat]? := by
      rw [List.getElem?_take_of_lt (by omega), List.getElem?_drop, Nat.add_zero]
    constructor
    · rintro ⟨r', s₂, returned', ret', dst'⟩
      rw [returned] at returned'
      cases returned'
      rw [ret] at ret'
      have accepts : Accepts (off.toNat / BSIZE) (xorBytes (s'.blk b)) := by
        by_contra refused
        rw [if_neg refused] at ret'
        omega
      rw [if_pos accepts] at ret'
      have one : min n.toNat (bytes.length - off.toNat) = 1 := by omega
      refine Or.inr ⟨one, ?_, b, refers, accepts⟩
      rw [sameDst] at dst'
      rw [← first]
      exact (store_singleton (by rw [List.length_take, List.length_drop, one])).mp dst'.symm
    · rintro (impossible | ⟨one, byte, c, refers', accepts⟩)
      · exact absurd impossible empty
      · rw [refers] at refers'
        rw [← Option.some.inj refers'] at accepts
        refine ⟨r, s'', returned, ?_, ?_⟩
        · rw [ret, if_pos accepts, one]
          rfl
        · rw [sameDst]
          exact ((store_singleton (by rw [List.length_take, List.length_drop, one])).mpr
            (first.trans byte)).symm

/-- The first byte of a file is read into memory that holds it already. -/
theorem readsBack_threeBytes : ∃ ip' s',
    runWrites noDevices [threeBytes] (emptyInode T_CHECKED 2) emptySt = .ok (ip', s') ∧
      ReadsBack noDevices s' ip' [7, 8, 9] (fun _ => 7) 0 1 := by
  have outcome : ((runWrites noDevices [threeBytes] (emptyInode T_CHECKED 2) emptySt).toOption.map
      fun r => (ref r.2.blk r.1.toDinode 0, xorBytes (r.2.blk 59))) = some (some 59, 6) := by
    decide +kernel
  rcases ok_of_evaluated outcome with ⟨r, run, observed⟩
  simp only [Prod.mk.injEq] at observed
  have readable : ReadableRange r.2 r.1 (specWrites [threeBytes] []) (fun _ => 7) 0 1 := by
    refine Or.inr ⟨by decide, by decide, 59, observed.1, ?_⟩
    rw [observed.2]
    decide
  refine ⟨r.1, r.2, run, ?_⟩
  exact (readsBack_iff_readable layout_mkfs low_emptyDisk (by decide) rfl (fun _ _ => rfl) rfl run
    (by decide) (by decide)).mpr readable

/-- Three bytes are written, and `readi` returns 1 for them. -/
theorem not_readsBack_threeBytes : ¬∀ (dev : Devsw) (ws : List Write) (s s' : St) (ip ip' : Inode),
    Layout s.sb → (∀ b < s.sb.dataStart, marked s.sb s.blk b = true) → ip.inum < s.sb.ninodes →
    ip.type = T_CHECKED → (∀ k ≤ NDIRECT, ip.addr k = 0) → ip.size = 0 →
    runWrites dev ws ip s = .ok (ip', s') → ∀ (dst : Mem) (off n : Word),
    off.toNat ≤ (specWrites ws []).length → off.toNat + n.toNat < 2 ^ 32 →
    ReadsBack dev s' ip' (specWrites ws []) dst off n := by
  intro readsBack
  have outcome : (((runWrites noDevices [threeBytes] (emptyInode T_CHECKED 2) >>= fun ip =>
      readi noDevices ip (fun _ => 0) 0 3) emptySt).toOption.map fun r => r.1.ret) = some 1 := by
    decide +kernel
  rcases ok_of_evaluated outcome with ⟨r, both, ret⟩
  rcases ok_of_bind both with ⟨ip', s', run, read⟩
  rcases readsBack noDevices [threeBytes] emptySt s' _ ip' layout_mkfs low_emptyDisk (by decide) rfl
    (fun _ _ => rfl) rfl run (fun _ => 0) 0 3 (by decide) (by decide)
      with ⟨r', s'', returned, ret', _⟩
  rw [read] at returned
  cases returned
  rw [ret] at ret'
  exact absurd ret' (by decide)

end Xv6.Fs
