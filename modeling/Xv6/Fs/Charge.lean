import Xv6.Fs.Contents
import Xv6.Fs.OpenLog

/-!
# The blocks that `writei` logs

A write logs the file blocks of its range. Where it fills slots it also logs the bitmap
block, and the indirect block if one of the slots is in there; and it logs the block of
the inode if the size grows. `charge` counts these blocks before the call. If the header
of the log has room for as many, then the log takes all calls of the write.
-/

namespace Xv6.Fs

open Prog

/-! ## Programs and the blocks they log -/

/-- The calls made between two states log the blocks `L`. -/
def Logs (s s' : St) (L : List ℕ) : Prop :=
  ∃ calls, s'.calls = s.calls ++ calls ∧ logged calls = L

section Rules

variable {s s' s'' : St} {L L' : List ℕ} {b : ℕ} {data : Block}

theorem Logs.refl : Logs s s [] := ⟨[], (List.append_nil _).symm, rfl⟩

theorem Logs.trans (first : Logs s s' L) (second : Logs s' s'' L') : Logs s s'' (L ++ L') := by
  rcases first with ⟨calls, recorded, rfl⟩
  rcases second with ⟨calls', recorded', rfl⟩
  refine ⟨calls ++ calls', ?_, List.filterMap_append⟩
  rw [recorded', recorded, List.append_assoc]

theorem Logs.of_calls (none : s.calls = []) (logs : Logs s s' L) : logged s'.calls = L := by
  rcases logs with ⟨calls, recorded, rfl⟩
  rw [recorded, none, List.nil_append]

theorem bread_logs {Q : Block → St → Prop}
    (post : ∀ calls, Logs s { s with calls := calls } [] → Q (s.blk b) { s with calls := calls }) :
    Meets (bread b) s (fun _ => True) Q := by
  unfold bread
  refine meets_ite (fun _ => meets_bind (meets_throw trivial)) fun _ => ?_
  refine meets_bind (meets_modify (meets_bind (meets_get (meets_pure ?_))))
  exact post _ ⟨[.bread b], rfl, rfl⟩

theorem brelse_logs {Q : Unit → St → Prop}
    (post : ∀ calls, Logs s { s with calls := calls } [] → Q () { s with calls := calls }) :
    Meets (brelse b) s (fun _ => True) Q :=
  post _ ⟨[.brelse b], rfl, rfl⟩

theorem logWrite_logs {Q : Unit → St → Prop}
    (post : ∀ calls, Logs s { s with blk := Function.update s.blk b data, calls := calls } [b] →
      Q () { s with blk := Function.update s.blk b data, calls := calls }) :
    Meets (logWrite b data) s (fun _ => True) Q :=
  post _ ⟨[.logWrite b data], rfl, rfl⟩

theorem bwrite_logs {Q : Unit → St → Prop}
    (post : ∀ calls, Logs s { s with blk := Function.update s.blk b data, calls := calls } [] →
      Q () { s with blk := Function.update s.blk b data, calls := calls }) :
    Meets (bwrite b data) s (fun _ => True) Q :=
  post _ ⟨[.bwrite b data], rfl, rfl⟩

theorem bzero_logs :
    Meets (bzero b) s (fun _ => True) fun _ s' => s'.sb = s.sb ∧ Logs s s' [b] := by
  refine meets_bind (bread_logs fun calls first => ?_)
  refine meets_bind (logWrite_logs fun calls second => ?_)
  exact brelse_logs fun calls third => ⟨rfl, (first.trans second).trans third⟩

/-! ## `balloc` and `bmap` -/

/-- An allocation logs a block of the bitmap and the new block. -/
theorem ballocFrom_logs {fuel : ℕ} (aligned : b % BPB = 0) :
    Meets (ballocFrom b fuel) s (fun _ => True) fun r s' =>
      s'.sb = s.sb ∧ r < s.sb.size ∧ Logs s s' [s.sb.bblock r, r] := by
  induction fuel generalizing b s with
  | zero => exact meets_throw trivial
  | succ fuel ih =>
      refine meets_bind (meets_get ?_)
      refine meets_ite (fun inside => ?_) fun _ => meets_throw trivial
      refine meets_bind (bread_logs fun calls first => ?_)
      cases search : findFree (s.blk (s.sb.bblock b)) b s.sb.size with
      | some bi =>
          rcases findFree_eq_some search with ⟨inBlock, inside', _⟩
          have block : s.sb.bblock (b + bi) = s.sb.bblock b := by
            simp only [Superblock.bblock, BPB, BSIZE] at aligned inBlock ⊢
            omega
          refine meets_bind (logWrite_logs fun calls second => ?_)
          refine meets_bind (brelse_logs fun calls third => ?_)
          refine bzero_logs.bind fun _ s' zeroed => meets_pure ⟨zeroed.1, inside', ?_⟩
          rw [block]
          exact ((first.trans second).trans third).trans zeroed.2
      | none =>
          refine meets_bind (brelse_logs fun calls second => ?_)
          have aligned' : (b + BPB) % BPB = 0 := by rw [Nat.add_mod_right, aligned]
          refine (ih aligned').mono (fun _ stop => stop) fun r s' rest => ⟨rest.1, rest.2.1, ?_⟩
          exact (first.trans second).trans rest.2.2

/-- The bitmap fits into one block. -/
theorem bblock_eq {sb : Superblock} (layout : Layout sb) (inside : b < sb.size) :
    sb.bblock b = sb.bmapstart := by
  have small := layout.disk
  simp only [Superblock.bblock, FSSIZE, BPB, BSIZE] at small ⊢
  omega

theorem balloc_logs (layout : Layout s.sb) : Meets balloc s (fun _ => True) fun r s' =>
    s'.sb = s.sb ∧ r < s.sb.size ∧ Logs s s' [s.sb.bmapstart, r] := by
  refine meets_bind (meets_get ?_)
  refine (ballocFrom_logs (Nat.zero_mod BPB)).mono (fun _ stop => stop) fun r s' allocated => ?_
  rw [bblock_eq layout allocated.2.1] at allocated
  exact allocated

/-- A block number fits into an address. -/
theorem toNat_block {sb : Superblock} (layout : Layout sb) (inside : b < sb.size) :
    (BitVec.ofNat 32 b).toNat = b := by
  have small := layout.disk
  rw [BitVec.toNat_ofNat]
  simp only [FSSIZE] at small
  omega

/-- Filling an address in the inode logs what its allocation logs. -/
theorem loadAddr_logs {ip : Inode} {i : ℕ} (layout : Layout s.sb) (low : i ≤ NDIRECT) :
    Meets (loadAddr ip i) s (fun _ => True) fun r s' => s'.sb = s.sb ∧ r.2.type = ip.type ∧
      r.1 = r.2.addr i ∧ ∃ L, Logs s s' L ∧ (∀ b ∈ L, b = s.sb.bmapstart ∨ b = r.1.toNat) ∧
        (ip.addr i ≠ 0 → L = [] ∧ r.2 = ip ∧ s' = s) := by
  refine meets_ite (fun empty => ?_) fun mapped => ?_
  · refine (balloc_logs layout).bind fun b s' allocated => meets_pure ?_
    rcases allocated with ⟨sb, inside, logs⟩
    refine ⟨sb, rfl, ?_, _, logs, ?_, fun mapped => absurd empty mapped⟩
    · rw [addr_setAddr low low, if_pos rfl]
    · intro b' mem
      rw [toNat_block layout inside]
      simpa using mem
  · exact meets_pure ⟨rfl, rfl, rfl, [], Logs.refl, (fun _ impossible => by cases impossible),
      fun _ => ⟨rfl, rfl, rfl⟩⟩

/-- Filling an entry of the indirect block logs that block besides. -/
theorem loadEntry_logs {indirect e : ℕ} (layout : Layout s.sb) :
    Meets (loadEntry indirect e) s (fun _ => True) fun r s' => s'.sb = s.sb ∧
      ∃ L, Logs s s' L ∧ (∀ b ∈ L, b = s.sb.bmapstart ∨ b = r.toNat ∨ b = indirect) ∧
        (Bytes.getWord (s.blk indirect) (4 * e) ≠ 0 → L = []) := by
  refine meets_bind (bread_logs fun calls first => ?_)
  refine meets_ite (fun empty => ?_) fun mapped => ?_
  · refine (balloc_logs (s := { s with calls := calls }) layout).bind fun b s' allocated => ?_
    rcases allocated with ⟨sb, inside, second⟩
    refine meets_bind (logWrite_logs fun calls third => ?_)
    refine meets_bind (brelse_logs fun calls fourth => meets_pure ?_)
    refine ⟨sb, _, ((first.trans second).trans third).trans fourth, ?_,
      fun mapped => absurd empty mapped⟩
    intro b' mem
    rw [toNat_block layout inside]
    simpa [or_assoc] using mem
  · refine meets_bind (brelse_logs fun calls second => meets_pure ?_)
    exact ⟨rfl, [], first.trans second, (fun _ impossible => by cases impossible), fun _ => rfl⟩

/-- `bmap` logs blocks only where it fills a slot. -/
theorem bmap_logs (ip : Inode) (bn : ℕ) (layout : Layout s.sb) (plain : ip.type ≠ T_CHECKED) :
    Meets (bmap ip bn) s (fun _ => True) fun r s' => s'.sb = s.sb ∧
      ∃ L, Logs s s' L ∧ (slot s.blk ip.toDinode bn ≠ 0 → L = []) ∧
        ∀ b ∈ L, b = s.sb.bmapstart ∨ b = r.1.toNat ∨
          (NDIRECT ≤ bn ∧ b = (r.2.addr NDIRECT).toNat) := by
  refine meets_ite (fun direct => ?_) fun notDirect => ?_
  · refine (loadAddr_logs layout (by omega)).bind fun r s' loaded => meets_pure ?_
    rcases loaded with ⟨sb, type, address, L, logs, blocks, kept⟩
    refine ⟨sb, L, logs, fun mapped => (kept ?_).1, fun b mem => ?_⟩
    · rwa [slot_direct _ direct] at mapped
    · rw [mask, type, if_neg plain]
      rcases blocks b mem with bitmap | block
      · exact Or.inl bitmap
      · exact Or.inr (Or.inl block)
  · have lower : NDIRECT ≤ bn := Nat.not_lt.mp notDirect
    refine meets_ite (fun within => ?_) fun _ => meets_throw trivial
    refine (loadAddr_logs layout le_rfl).bind fun r s' loaded => ?_
    rcases loaded with ⟨sb, type, address, L, logs, blocks, kept⟩
    refine (loadEntry_logs (by rw [sb]; exact layout)).bind fun a s'' entry => meets_pure ?_
    rcases entry with ⟨sb', L', logs', blocks', kept'⟩
    refine ⟨sb'.trans sb, L ++ L', logs.trans logs', fun mapped => ?_, fun b mem => ?_⟩
    · have indirect := indirect_mapped lower mapped
      rcases kept indirect with ⟨none, same, rfl⟩
      have upper : bn < MAXFILE := by
        simp only [MAXFILE]
        omega
      rw [slot_entry _ lower upper indirect] at mapped
      rw [none, kept' (by rw [address, same]; exact mapped)]
      rfl
    · rw [mask, type, if_neg plain]
      rw [sb] at blocks'
      rcases List.mem_append.mp mem with early | late
      · rcases blocks b early with bitmap | block
        · exact Or.inl bitmap
        · exact Or.inr (Or.inr ⟨lower, by rw [← address]; exact block⟩)
      · rcases blocks' b late with bitmap | block | block
        · exact Or.inl bitmap
        · exact Or.inr (Or.inl block)
        · exact Or.inr (Or.inr ⟨lower, by rw [← address]; exact block⟩)

end Rules

/-! ## The loop of `writei` -/

/-- The file blocks of a range. -/
def fileBlocks (off n : ℕ) : Finset ℕ := (Finset.Ico off (off + n)).image (· / BSIZE)

/--
The blocks that `writei` logs: those of the range, the bitmap block and the indirect block
where slots are filled, and the block of the inode if the size grows.
-/
def charge (blk : Disk) (ip : Dinode) (off n : ℕ) : ℕ :=
  (fileBlocks off n).card +
    (if ∃ k ∈ fileBlocks off n, slot blk ip k = 0 then 1 else 0) +
    (if ∃ k ∈ fileBlocks off n, NDIRECT ≤ k ∧ slot blk ip k = 0 then 1 else 0) +
    (if ip.size.toNat < off + n then 1 else 0)

/-- A write of `n` bytes is made in a transaction, and the header has room for what it logs. -/
def OpenLog.Room (log : OpenLog) (blk : Disk) (ip : Dinode) (off n : ℕ) : Prop :=
  n = 0 ∨ (1 ≤ log.outstanding ∧ log.lh.length + charge blk ip off n ≤ log.limit)

/-- The list `L` holds, beside the file blocks `K` of the new inode, what `bmap` logs for them. -/
structure Charged (sb : Superblock) (blk : Disk) (ip ip' : Dinode) (K : Finset ℕ) (L : List ℕ) :
    Prop where
  blocks : ∃ M : Finset ℕ, M.card ≤ K.card ∧ ∀ b ∈ L, b ∈ M ∨
    (b = sb.bmapstart ∧ ∃ k ∈ K, slot blk ip k = 0) ∨
    (b = (ip'.addr NDIRECT).toNat ∧ ∃ k ∈ K, NDIRECT ≤ k ∧ slot blk ip k = 0)
  once : (∀ k ∈ K, slot blk ip k ≠ 0) → L.length ≤ K.card

theorem mem_fileBlocks {off n k : ℕ} : k ∈ fileBlocks off n ↔ Touches off n k := by
  simp only [fileBlocks, Finset.mem_image, Finset.mem_Ico, Touches, and_assoc]

/-- The range ends at the end of a block, or goes on there. -/
theorem fileBlocks_chunk {n m : ℕ} (off : ℕ) (nonempty : 0 < n)
    (length : m = min n (BSIZE - off % BSIZE)) :
    off / BSIZE ∉ fileBlocks (off + m) (n - m) ∧
    fileBlocks off n = insert (off / BSIZE) (fileBlocks (off + m) (n - m)) := by
  have position := Nat.div_add_mod' off BSIZE
  constructor
  · rw [mem_fileBlocks]
    rintro ⟨x, lower, upper, same⟩
    have position' := Nat.div_add_mod' x BSIZE
    simp only [BSIZE] at *
    omega
  · ext k
    rw [Finset.mem_insert, mem_fileBlocks, mem_fileBlocks]
    constructor
    · rintro ⟨x, lower, upper, rfl⟩
      by_cases early : x < off + m
      · left
        have position' := Nat.div_add_mod' x BSIZE
        simp only [BSIZE] at *
        omega
      · exact Or.inr ⟨x, by omega, by omega, rfl⟩
    · rintro (rfl | ⟨x, lower, upper, rfl⟩)
      · exact ⟨off, le_rfl, by omega, rfl⟩
      · exact ⟨x, by omega, by omega, rfl⟩

namespace Charged

variable {sb : Superblock} {blk blk' : Disk} {ip ip₁ ip' : Dinode} {K : Finset ℕ} {L L' : List ℕ}

theorem nil : Charged sb blk ip ip' K [] where
  blocks := ⟨∅, Nat.zero_le _, fun _ impossible => by cases impossible⟩
  once := fun _ => Nat.zero_le _

/-- One iteration of the loop, and the rest. -/
theorem cons {k addr : ℕ} (new : k ∉ K)
    (first : ∀ b ∈ L, b = sb.bmapstart ∨ b = addr ∨
      (NDIRECT ≤ k ∧ b = (ip₁.addr NDIRECT).toNat))
    (mapped : slot blk ip k ≠ 0 → L = [])
    (indirect : L ≠ [] → NDIRECT ≤ k → ip'.addr NDIRECT = ip₁.addr NDIRECT)
    (kept : ∀ l ∈ K, slot blk ip l ≠ 0 → slot blk' ip₁ l ≠ 0)
    (rest : Charged sb blk' ip₁ ip' K L') :
    Charged sb blk ip ip' (insert k K) (L ++ addr :: L') where
  blocks := by
    rcases rest.blocks with ⟨M, card, blocks⟩
    have emptied : ∀ l ∈ K, slot blk' ip₁ l = 0 → slot blk ip l = 0 :=
      fun l mem => not_imp_not.mp (kept l mem)
    refine ⟨insert addr M, ?_, fun b mem => ?_⟩
    · rw [Finset.card_insert_of_notMem new]
      exact (Finset.card_insert_le _ _).trans (Nat.succ_le_succ card)
    · rcases List.mem_append.mp mem with early | later
      · have filled : slot blk ip k = 0 := by
          by_contra allocated
          rw [mapped allocated] at early
          cases early
        have some : L ≠ [] := List.ne_nil_of_mem early
        rcases first b early with bitmap | block | ⟨lower, block⟩
        · exact Or.inr (Or.inl ⟨bitmap, k, Finset.mem_insert_self _ _, filled⟩)
        · exact Or.inl (block ▸ Finset.mem_insert_self _ _)
        · rw [← indirect some lower] at block
          exact Or.inr (Or.inr ⟨block, k, Finset.mem_insert_self _ _, lower, filled⟩)
      · rcases List.mem_cons.mp later with rfl | later
        · exact Or.inl (Finset.mem_insert_self _ _)
        · rcases blocks b later with inM | ⟨bitmap, l, inK, empty⟩ | ⟨block, l, inK, lower, empty⟩
          · exact Or.inl (Finset.mem_insert_of_mem inM)
          · exact Or.inr (Or.inl ⟨bitmap, l, Finset.mem_insert_of_mem inK, emptied l inK empty⟩)
          · exact Or.inr (Or.inr
              ⟨block, l, Finset.mem_insert_of_mem inK, lower, emptied l inK empty⟩)
  once := by
    intro all
    have none := mapped (all k (Finset.mem_insert_self _ _))
    have later := rest.once fun l mem => kept l mem (all l (Finset.mem_insert_of_mem mem))
    rw [none, List.nil_append, List.length_cons, Finset.card_insert_of_notMem new]
    exact Nat.succ_le_succ later

/-- Every block that has to be filled is charged once, with one bitmap block and one indirect block
for all. -/
theorem card_le (charged : Charged sb blk ip ip' K L) : L.toFinset.card ≤ K.card +
    (if ∃ k ∈ K, slot blk ip k = 0 then 1 else 0) +
    (if ∃ k ∈ K, NDIRECT ≤ k ∧ slot blk ip k = 0 then 1 else 0) := by
  rcases charged.blocks with ⟨M, card, blocks⟩
  have sub : L.toFinset ⊆ M ∪ (if ∃ k ∈ K, slot blk ip k = 0 then {sb.bmapstart} else ∅) ∪
      (if ∃ k ∈ K, NDIRECT ≤ k ∧ slot blk ip k = 0 then {(ip'.addr NDIRECT).toNat} else ∅) := by
    intro b mem
    rcases blocks b (List.mem_toFinset.mp mem) with inM | ⟨rfl, fills⟩ | ⟨rfl, fills⟩
    · exact Finset.mem_union_left _ (Finset.mem_union_left _ inM)
    · rw [if_pos fills]
      exact Finset.mem_union_left _ (Finset.mem_union_right _ (Finset.mem_singleton_self _))
    · rw [if_pos fills]
      exact Finset.mem_union_right _ (Finset.mem_singleton_self _)
  have single : ∀ (c : Prop) [Decidable c] (b : ℕ),
      (if c then ({b} : Finset ℕ) else ∅).card = if c then 1 else 0 := by
    intro c _ b
    split
    · exact Finset.card_singleton b
    · exact Finset.card_empty
  refine (Finset.card_le_card sub).trans ?_
  refine (Finset.card_union_le _ _).trans (Nat.add_le_add ?_ (single _ _).le)
  exact (Finset.card_union_le _ _).trans (Nat.add_le_add card (single _ _).le)

end Charged

variable {ι : Type} {s : St} {ips : ι → Inode} {i : ι}

/-- Where nothing is missing, `bmap` logs nothing and changes nothing. -/
theorem bmap_mapped_logs {Q : Word × Inode → St → Prop} {ip : Inode} (here : ips i = ip)
    (own : Owned s.sb s.blk ips) (plain : ip.type ≠ T_CHECKED) {bn : ℕ} (upper : bn < MAXFILE)
    (mapped : slot s.blk ip.toDinode bn ≠ 0)
    (post : ∀ calls, Logs s { s with calls := calls } [] →
      Q (mask ip.type (slot s.blk ip.toDinode bn), ip) { s with calls := calls }) :
    Meets (bmap ip bn) s (fun _ => True) Q := by
  subst here
  have both := (bmap_logs (s := s) (ips i) bn own.layout plain).and
    (bmap_mapped_meets (E := fun _ => True) (Q := fun r s' =>
      ∃ calls, s' = { s with calls := calls } ∧
        r = (mask (ips i).type (slot s.blk (ips i).toDinode bn), ips i)) own upper mapped
      fun calls => ⟨calls, rfl, rfl⟩)
  refine both.mono (fun _ _ => trivial) ?_
  rintro _ _ ⟨⟨_, L, logs, none, _⟩, calls, rfl, rfl⟩
  rw [none mapped] at logs
  exact post calls logs

variable [DecidableEq ι]

/-- What one iteration of `writei` writes, it logs once. -/
theorem store_logs {β : Type} {Q : β → St → Prop} {f : Inode → FsM β} {blk : Disk} {ip : Inode}
    {off m : ℕ} {src : Mem} {block : Word} {data : Block} (own : Owned s.sb blk ips)
    (plain : ip.type ≠ T_CHECKED) (inRange : off / BSIZE < MAXFILE) (nonempty : 0 < m)
    (inBlock : off % BSIZE + m ≤ BSIZE)
    (filled : Filled s.sb blk s.blk ips i ip (touched (off / BSIZE)))
    (address : block = mask (ips i).type (slot s.blk ip.toDinode (off / BSIZE)))
    (moved : data = Bytes.move (s.blk block.toNat) (off % BSIZE) m src)
    (post : ∀ blk' calls, Written s.sb blk blk' ips i ip off m src →
      Logs s { s with blk := blk', calls := calls } [block.toNat] →
      Meets (f ip) { s with blk := blk', calls := calls } (fun _ => True) Q) :
    Meets (do
      let ip ← writeTag ip block data
      logWrite block.toNat data
      bwrite block.toNat data
      brelse block.toNat
      f ip) s (fun _ => True) Q := by
  have untagged : writeTag ip block data = pure ip := if_neg plain
  have written := store_meets (f := fun ip => (pure ip : FsM Inode)) (E := fun _ => True)
    (Q := fun ip' s' => ∃ blk' calls, s' = { s with blk := blk', calls := calls } ∧
      Written s.sb blk blk' ips i ip' off m src)
    own inRange nonempty inBlock filled address moved
    fun ip' blk' calls written => meets_pure ⟨blk', calls, rfl, written⟩
  rw [untagged] at written ⊢
  have stored : Written s.sb blk (Function.update (Function.update s.blk block.toNat data)
      block.toNat data) ips i ip off m src := by
    rcases written with ⟨blk', calls, same, written⟩
    have view : Function.update (Function.update s.blk block.toNat data) block.toNat data = blk' :=
      congrArg St.blk same
    rw [view]
    exact written
  refine meets_bind (meets_pure ?_)
  refine meets_bind (logWrite_logs fun calls first => ?_)
  refine meets_bind (bwrite_logs fun calls second => ?_)
  refine meets_bind (brelse_logs fun calls third => ?_)
  exact post _ calls stored ((first.trans second).trans third)

/-- The loop of `writei` logs the blocks of its range and what their allocation logs. -/
theorem writeiLoop_logs {src : Mem} {n fuel tot off : ℕ} {ip : Inode} (here : ips i = ip)
    (own : Owned s.sb s.blk ips) (plain : (ips i).type ≠ T_CHECKED) (enough : n - tot ≤ fuel)
    (inFile : off + (n - tot) ≤ MAXFILE * BSIZE) :
    Meets (writeiLoop src n fuel tot off ip) s (fun _ => True) fun r s' =>
      r.1 = off + (n - tot) ∧ Written s.sb s.blk s'.blk ips i r.2 off (n - tot)
        (fun j => src (tot + j)) ∧ s'.sb = s.sb ∧
      ∃ L, Logs s s' L ∧ Charged s.sb s.blk (ips i).toDinode r.2.toDinode
        (fileBlocks off (n - tot)) L := by
  induction fuel generalizing s ips ip tot off with
  | zero =>
      have finished : n - tot = 0 := by omega
      subst here
      rw [finished]
      exact meets_pure ⟨rfl, Written.refl own, rfl, [], Logs.refl, Charged.nil⟩
  | succ fuel ih =>
      refine meets_ite (fun more => ?_) fun last => ?_
      · have nonempty := chunk_pos off more
        have inBlock := chunk_le n tot off
        have inRange : off / BSIZE < MAXFILE := by
          rw [Nat.div_lt_iff_lt_mul (by decide)]
          omega
        have layout := own.layout
        -- The first `bmap` may log blocks, the second one does not.
        have found := (bmap_logs (s := s) (ips i) (off / BSIZE) layout plain).and
          (bmap_meets (E := fun _ => True) (Q := fun r s' => ∃ ip' blk' calls,
            s' = { s with blk := blk', calls := calls } ∧
            r = (mask (ips i).type (slot blk' ip'.toDinode (off / BSIZE)), ip') ∧
            Filled s.sb s.blk blk' ips i ip' (touched (off / BSIZE))) rfl own inRange
            (fun _ => trivial) fun ip' blk' calls first => ⟨ip', blk', calls, rfl, rfl, first⟩)
        rw [← here]
        refine meets_bind (found.mono (fun _ _ => trivial) ?_)
        rintro _ _ ⟨⟨_, L₁, logs₁, mapped, blocks⟩, ip₁, blk₁, calls₁, rfl, rfl, first⟩
        have self : Function.update ips i ip₁ i = ip₁ := Function.update_self _ _ _
        have plain₁ : ip₁.type ≠ T_CHECKED := by
          rw [first.type_eq]
          exact plain
        have mapped₁ := first.filled _ (mem_touched (off / BSIZE))
        refine meets_bind (bmap_mapped_logs (s := { s with blk := blk₁, calls := calls₁ }) self
          first.owned plain₁ inRange mapped₁ fun calls₂ logs₂ => ?_)
        rw [first.type_eq]
        refine meets_bind (bread_logs fun calls₃ logs₃ => ?_)
        refine store_logs (s := { s with blk := blk₁, calls := calls₃ }) own plain₁ inRange nonempty
          inBlock first rfl rfl ?_
        intro blk' calls (written : Written s.sb s.blk blk' ips i ip₁ off (chunk n tot off)
          fun j => src (tot + j)) logs₄
        have within : chunk n tot off ≤ n - tot := Nat.min_le_left _ _
        refine (ih self written.owned (by rw [self]; exact plain₁) (by omega) (by omega)).mono
          (fun _ stop => stop) ?_
        rintro r s' ⟨last, rest, sb, L, logs, charged⟩
        have remaining : n - (tot + chunk n tot off) = n - tot - chunk n tot off := by omega
        have total : chunk n tot off + (n - tot - chunk n tot off) = n - tot := by omega
        rw [remaining] at rest charged
        have whole := written.trans (n := n - tot - chunk n tot off) (by
          simpa only [Nat.add_assoc] using rest)
        rw [total] at whole
        have all := (((logs₁.trans logs₂).trans logs₃).trans logs₄).trans logs
        simp only [List.append_nil, List.append_assoc, List.singleton_append] at all
        refine ⟨by omega, whole, sb, _, all, ?_⟩
        rcases fileBlocks_chunk off (n := n - tot) (by omega) rfl with ⟨new, split⟩
        rw [self] at charged
        rw [split]
        refine Charged.cons new blocks mapped (fun _ lower => ?_) (fun l _ allocated => ?_) charged
        · have indirect : slot blk' ip₁.toDinode MAXFILE ≠ 0 := by
            intro unmapped
            have before := ((written.empty MAXFILE).mp unmapped).2
            refine before (Finset.mem_biUnion.mpr ⟨off / BSIZE, ?_, ?_⟩)
            · exact Finset.mem_image.mpr ⟨off, Finset.mem_Ico.mpr ⟨le_rfl, by omega⟩, rfl⟩
            · rw [touched, if_neg (by omega)]
              exact Finset.mem_union_left _ (Finset.mem_singleton_self _)
          have kept := rest.slots MAXFILE (by rw [self]; exact indirect) fun _ => by
            rw [self]
            exact plain₁
          rwa [self, slot_maxfile, slot_maxfile] at kept
        · exact fun emptied => allocated ((written.empty l).mp emptied).1
      · have finished : n - tot = 0 := by omega
        subst here
        rw [finished]
        exact meets_pure ⟨rfl, Written.refl own, rfl, [], Logs.refl, Charged.nil⟩

/-! ## `writei` -/

theorem iupdate_logs {ip : Inode} : Meets (iupdate ip) s (fun _ => True) fun _ s' =>
    Logs s s' [s.sb.iblock ip.inum] := by
  refine meets_bind (meets_get ?_)
  refine meets_bind (bread_logs fun calls first => ?_)
  refine meets_bind (logWrite_logs fun calls second => ?_)
  exact brelse_logs fun calls third => (first.trans second).trans third

omit [DecidableEq ι] in
/-- Inside the file nothing has to be filled. -/
theorem Owned.filled_fileBlocks {sb : Superblock} {blk : Disk} (own : Owned sb blk ips) {off n : ℕ}
    (inside : off + n ≤ (ips i).size.toNat) {k : ℕ} (mem : k ∈ fileBlocks off n) :
    slot blk (ips i).toDinode k ≠ 0 := by
  rcases mem_fileBlocks.mp mem with ⟨x, lower, upper, rfl⟩
  exact (own.allocated_div (x := x) (by omega)).2

/-- The log takes the calls of a write for which its header has room. -/
theorem writei_taken {dev : Devsw} {src : Mem} {off n : Word} {log : OpenLog} {r : ℤ × Inode}
    {s' : St} (own : Owned s.sb s.blk ips)
    (regular : (ips i).type ≠ T_DEV ∧ (ips i).type ≠ T_CHECKED)
    (accepted : ¬rejects (ips i).size.toNat off.toNat n.toNat)
    (room : log.Room s.blk (ips i).toDinode off.toNat n.toNat) (none : s.calls = [])
    (returned : writei dev (ips i) src off n s = .ok (r, s')) :
    ∃ log', log.takes s'.calls = .ok log' := by
  simp only [rejects, not_or, Nat.not_lt, Nat.not_le] at accepted
  rcases accepted with ⟨inside, fits, short⟩
  have outside : ¬(off > (ips i).size ∨ off + n < off) := by
    rw [rejects_iff]
    omega
  have long : ¬off + n > BitVec.ofNat 32 (MAXFILE * BSIZE) := by
    rw [tooLong_iff (not_or.mp outside).2]
    omega
  rw [writei, if_neg regular.1, if_neg outside, if_neg long] at returned
  rcases ok_of_bind returned with ⟨⟨last, ip'⟩, s₁, looped, rest⟩
  have loop := (writeiLoop_logs rfl own regular.2 (by omega) (by omega)).of_ok looped
  rcases loop with ⟨ending, written, sb, L, logs, charged⟩
  simp only [Nat.sub_zero] at ending written charged
  by_cases empty : n.toNat = 0
  · -- Nothing is written, and nothing is logged.
    have nothing : L = [] := by
      have few := charged.once fun k mem => by
        rw [empty, mem_fileBlocks] at mem
        rcases mem with ⟨x, lower, upper, _⟩
        omega
      rw [empty] at few
      simpa [fileBlocks] using few
    have stays : ¬(0 < n.toNat ∧ ip'.size.toNat < last) := fun grows => by omega
    have same : s' = s₁ := by
      simp only [if_neg stays] at rest
      cases rest
      rfl
    refine ⟨log, OpenLog.takes_of_logged_nil ?_⟩
    rw [same, logs.of_calls none, nothing]
  · rcases room.resolve_left empty with ⟨inTrans, room⟩
    refine OpenLog.takes_of_card inTrans ?_
    have fewer : ∀ l : List ℕ, (l.toFinset \ log.lh.toFinset).card ≤ l.toFinset.card :=
      fun l => Finset.card_le_card Finset.sdiff_subset
    by_cases grows : 0 < n.toNat ∧ ip'.size.toNat < last
    · simp only [if_pos grows] at rest
      rcases ok_of_bind rest with ⟨_, s₂, flushed, finished⟩
      cases finished
      have all := logs.trans (iupdate_logs.of_ok flushed)
      rw [all.of_calls none, List.dropLast_concat]
      have count := charged.card_le
      have size : ip'.size = (ips i).size := written.size_eq
      have larger : (ips i).size.toNat < off.toNat + n.toNat := by
        rw [← size, ← ending]
        exact grows.2
      rw [charge, if_pos larger] at room
      exact lt_of_lt_of_le (Nat.lt_succ_of_le (Nat.add_le_add_left ((fewer L).trans count) _)) room
    · have same : s' = s₁ := by
        simp only [if_neg grows] at rest
        cases rest
        rfl
      rw [same, logs.of_calls none]
      have covered : off.toNat + n.toNat ≤ (ips i).size.toNat := by
        rw [written.size_eq] at grows
        omega
      have allocated : ∀ k ∈ fileBlocks off.toNat n.toNat, slot s.blk (ips i).toDinode k ≠ 0 :=
        fun k mem => own.filled_fileBlocks covered mem
      have some : 0 < (fileBlocks off.toNat n.toNat).card :=
        Finset.card_pos.mpr ⟨_, mem_fileBlocks.mpr ⟨off.toNat, le_rfl, by omega, rfl⟩⟩
      have once := charged.once allocated
      have count := (fewer L.dropLast).trans L.dropLast.toFinset_card_le
      rw [List.length_dropLast] at count
      rw [charge] at room
      omega

/-! ## `readi` -/

omit [DecidableEq ι]

/-- The loop of `readi` logs nothing. -/
theorem readiLoop_logs (own : Owned s.sb s.blk ips) (plain : (ips i).type ≠ T_CHECKED)
    {n fuel tot off : ℕ} {dst : Mem} (inside : off + (n - tot) ≤ (ips i).size.toNat) :
    Meets (readiLoop n fuel tot off (ips i) dst) s (fun _ => True) fun _ s' => Logs s s' [] := by
  induction fuel generalizing s tot off dst with
  | zero => exact meets_pure Logs.refl
  | succ fuel ih =>
      refine meets_ite (fun more => ?_) fun _ => meets_pure Logs.refl
      have within : chunk n tot off ≤ n - tot := Nat.min_le_left _ _
      rcases own.allocated_div (i := i) (x := off) (by omega) with ⟨inRange, mapped⟩
      refine meets_bind (bmap_mapped_logs rfl own plain inRange mapped fun calls first => ?_)
      refine meets_bind (bmap_mapped_logs (s := { s with calls := calls }) rfl own plain inRange
        mapped fun calls second => ?_)
      refine meets_bind (bread_logs fun calls third => ?_)
      refine meets_ite (fun checked => absurd checked plain) fun _ => ?_
      refine meets_bind (brelse_logs fun calls fourth => ?_)
      refine (ih (s := { s with calls := calls }) own (by omega)).mono (fun _ stop => stop) ?_
      intro _ s' rest
      exact (((first.trans second).trans third).trans fourth).trans rest

/-- `readi` logs nothing. -/
theorem readi_logs {dev : Devsw} {dst : Mem} {off n : Word} (own : Owned s.sb s.blk ips)
    (regular : (ips i).type ≠ T_DEV ∧ (ips i).type ≠ T_CHECKED) :
    Meets (readi dev (ips i) dst off n) s (fun _ => True) fun _ s' => Logs s s' [] := by
  rw [readi, if_neg regular.1]
  refine meets_ite (fun _ => meets_pure Logs.refl) fun accepted => ?_
  rcases not_or.mp accepted with ⟨inside, fits⟩
  refine readiLoop_logs own regular.2 ?_
  have before := not_or.mp (mt rejects_iff.mpr accepted)
  rw [toNat_clip inside fits]
  omega

end Xv6.Fs
