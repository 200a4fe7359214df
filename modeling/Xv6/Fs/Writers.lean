import Xv6.Fs.Files
import Xv6.Lib.Runs
import Xv6.Lib.Shares

/-!
# Writers that share an open file

`filewrite` of part2's `file.c` on one `struct file` of type `FD_INODE`, as a machine in which any
number of processes call it. A write is split into sections from `begin_op` to `end_op`, which run
under the lock of the inode and are the steps of the machine.

`calls` and `sections` are ghost state: the bytes that each call was given, and the range and the
bytes of each section that has written. No step reads them.
-/

namespace Xv6.Fs

open Prog Shares

variable {P ι : Type}

/-- `max` in `filewrite`. -/
abbrev maxWrite : ℕ := ((MAXOPBLOCKS - 1 - 1 - 2) / 2) * 512

/-- A process in the loop of `filewrite`. -/
structure WriteLoop where
  addr : Mem
  n : ℕ
  i : ℕ

namespace WriteLoop

/-- `n1` -/
def n₁ (c : WriteLoop) : ℕ := min (c.n - c.i) maxWrite

/-- `addr + i` -/
def src (c : WriteLoop) : Mem := fun j => c.addr (c.i + j)

/-- The bytes that are still to be written. -/
def left (c : WriteLoop) : List Byte := (List.range (c.n - c.i)).map c.src

end WriteLoop

/-- A `struct file` of type `FD_INODE`. -/
structure OpenFile (ι : Type) where
  writable : Bool
  ip : ι
  off : Word

structure Section (P : Type) where
  writer : P
  off : ℕ
  bytes : List Byte

structure Writers (P ι : Type) where
  fs : St
  ips : ι → Inode
  file : OpenFile ι
  writing : P → Option WriteLoop
  /-- What the calls have returned. -/
  replies : List (P × ℤ)
  calls : List (P × List Byte)
  sections : List (Section P)

namespace Writers

variable [DecidableEq P] [DecidableEq ι]

/-- Before any call. -/
def start (fs : St) (ips : ι → Inode) (file : OpenFile ι) : Writers P ι where
  fs := fs
  ips := ips
  file := file
  writing := fun _ => none
  replies := []
  calls := []
  sections := []

/-- `filewrite` returns `r` to process `p`. -/
def reply (w : Writers P ι) (p : P) (r : ℤ) : Writers P ι :=
  { w with writing := Function.update w.writing p none, replies := w.replies ++ [(p, r)] }

/-- Process `p` calls `filewrite` with `addr` and `n`. -/
def filewrite (w : Writers P ι) (p : P) (addr : Mem) (n : ℤ) : Writers P ι :=
  let w := { w with calls := w.calls ++ [(p, (List.range n.toNat).map addr)] }
  if w.file.writable = false then w.reply p (-1)
  else if 0 < n then { w with writing := Function.update w.writing p (some ⟨addr, n.toNat, 0⟩) }
  else w.reply p (if n = 0 then n else -1)

/-- After `writei` has returned `r`, up to `iunlock`. -/
def advance (w : Writers P ι) (p : P) (c : WriteLoop) (r : ℤ) : Writers P ι :=
  if 0 < r then
    { w with
      file := { w.file with off := w.file.off + BitVec.ofInt 32 r }
      sections := w.sections ++ [⟨p, w.file.off.toNat, (List.range r.toNat).map c.src⟩] }
  else w

/-- Process `p` goes through the loop of `filewrite` once. -/
def turn (dev : Devsw) (w : Writers P ι) (p : P) (c : WriteLoop) : Option (Writers P ι) :=
  match writei dev (w.ips w.file.ip) c.src w.file.off (BitVec.ofNat 32 c.n₁) w.fs with
  | .error _ => none
  | .ok ((r, ip), fs) =>
      let w := { w with fs := fs, ips := Function.update w.ips w.file.ip ip }.advance p c r
      if r < 0 then some (w.reply p (-1))
      else if r ≠ c.n₁ then none -- panic("short filewrite")
      else if c.i + c.n₁ < c.n then
        some { w with writing := Function.update w.writing p (some { c with i := c.i + c.n₁ }) }
      else some (w.reply p (if c.i + c.n₁ = c.n then c.n else -1))

end Writers

inductive WriteEvent (P : Type) where
  | filewrite (p : P) (addr : Mem) (n : ℤ)
  | turn (p : P)

/-- A step; there is none if the event is not possible or the kernel panics. -/
def writeStep [DecidableEq P] [DecidableEq ι] (dev : Devsw) (w : Writers P ι) :
    WriteEvent P → Option (Writers P ι)
  | .filewrite p addr n =>
      match w.writing p with
      | none => some (w.filewrite p addr n)
      | some _ => none
  | .turn p =>
      match w.writing p with
      | none => none
      | some c => w.turn dev p c

/-! ## One section -/

theorem splice_append {file a b : List Byte} {off : ℕ} (inside : off ≤ file.length) :
    splice (splice file off a) (off + a.length) b = splice file off (a ++ b) := by
  have before : (file.take off ++ a).length = off + a.length := by
    rw [List.length_append, List.length_take, Nat.min_eq_left inside]
  have kept : (splice file off a).take (off + a.length) = file.take off ++ a := by
    rw [splice, ← before, List.take_left]
  have rest : (splice file off a).drop (off + a.length + b.length) =
      file.drop (off + (a ++ b).length) := by
    rw [splice, ← List.drop_drop, ← before, List.drop_left, List.drop_drop, List.length_append,
      List.length_append, List.length_take, Nat.min_eq_left inside, Nat.add_assoc]
  rw [splice, kept, rest, splice, List.append_assoc (file.take off)]

theorem length_splice (file a : List Byte) (off : ℕ) :
    (splice file off a).length = min off file.length + a.length +
      (file.length - (off + a.length)) := by
  rw [splice, List.length_append, List.length_append, List.length_take, List.length_drop]

/-- What a `writei` that does not fail does to a regular file. -/
theorem writei_section [DecidableEq ι] {dev : Devsw} {s s' : St} {ips : ι → Inode} {i : ι}
    {src : Mem} {off n : Word} {r : ℤ} {ip' : Inode} (own : Owned s.sb s.blk ips)
    (regular : (ips i).type = T_FILE)
    (returned : writei dev (ips i) src off n s = .ok ((r, ip'), s')) (succeeded : ¬r < 0) :
    ¬rejects (ips i).size.toNat off.toNat n.toNat ∧ r = n.toNat ∧
    Owned s'.sb s'.blk (Function.update ips i ip') ∧ ip'.type = T_FILE ∧
    contents s'.blk ip'.toDinode =
      splice (contents s.blk (ips i).toDinode) off.toNat ((List.range n.toNat).map src) := by
  have notDev : (ips i).type ≠ T_DEV := by
    rw [regular]
    decide
  by_cases rejected : rejects (ips i).size.toNat off.toNat n.toNat
  · rw [writei_of_rejects notDev rejected] at returned
    cases returned
    exact absurd (by decide : (-1 : ℤ) < 0) succeeded
  · refine ⟨rejected, ?_⟩
    have meets : Meets (writei dev (ips i) src off n) s (fun _ => True) fun a s' => a.1 = n.toNat ∧
        Owned s'.sb s'.blk (Function.update ips i a.2) ∧ a.2.type = T_FILE ∧
        contents s'.blk a.2.toDinode =
          splice (contents s.blk (ips i).toDinode) off.toNat ((List.range n.toNat).map src) := by
      refine writei_meets rfl own notDev rejected (fun _ => trivial) fun ip' blk' calls done => ?_
      simp only [rejects, not_or, Nat.not_lt, Nat.not_le] at rejected
      rcases rejected with ⟨inside, fits, short⟩
      refine ⟨rfl, done.owned_flush inside short, ?_, done.contents_eq own inside short⟩
      rw [type_extend, done.type_eq, regular]
    exact meets.of_ok returned

namespace WriteLoop

variable {c : WriteLoop}

theorem n₁_le (c : WriteLoop) : c.n₁ ≤ c.n - c.i ∧ c.n₁ < 2 ^ 32 :=
  ⟨Nat.min_le_left _ _, (Nat.min_le_right _ _).trans_lt (by decide)⟩

/-- A section writes the first of the bytes that are left. -/
theorem left_eq (c : WriteLoop) :
    c.left = (List.range c.n₁).map c.src ++ left { c with i := c.i + c.n₁ } := by
  have split : c.n - c.i = c.n₁ + (c.n - (c.i + c.n₁)) := by
    have := c.n₁_le
    omega
  rw [left, split, List.range_add, List.map_append, List.map_map, left]
  congr 1
  refine List.map_congr_left fun j _ => ?_
  simp only [src, Function.comp_apply, Nat.add_assoc]

end WriteLoop

/-! ## Runs -/

namespace Writers

variable (w : Writers P ι) (p : P) (c : WriteLoop) (r : ℤ)

@[simp]
theorem fs_advance : (w.advance p c r).fs = w.fs := by
  rw [advance, apply_ite Writers.fs, ite_self]

@[simp]
theorem ips_advance : (w.advance p c r).ips = w.ips := by
  rw [advance, apply_ite Writers.ips, ite_self]

@[simp]
theorem writing_advance : (w.advance p c r).writing = w.writing := by
  rw [advance, apply_ite Writers.writing, ite_self]

@[simp]
theorem replies_advance : (w.advance p c r).replies = w.replies := by
  rw [advance, apply_ite Writers.replies, ite_self]

@[simp]
theorem calls_advance : (w.advance p c r).calls = w.calls := by
  rw [advance, apply_ite Writers.calls, ite_self]

end Writers

section Runs

variable [DecidableEq P] [DecidableEq ι] {dev : Devsw} {w₀ w w' : Writers P ι} {p : P}
  {c : WriteLoop}

/-- What process `p` has still to write of its call. -/
def Writers.left (w : Writers P ι) (p : P) : List Byte := (w.writing p).elim [] WriteLoop.left

/-- The file after the sections: they have written one behind the other, from the offset on that the
`struct file` had at first. -/
structure Placed (w₀ : Writers P ι) (fs : St) (ips : ι → Inode) (file : OpenFile ι)
    (sections : List (Section P)) :
    Prop where
  owned : Owned fs.sb fs.blk ips
  ip : file.ip = w₀.file.ip
  regular : (ips file.ip).type = T_FILE
  consecutive : Consecutive Section.off (fun x => x.bytes.length) w₀.file.off.toNat sections
  off : file.off.toNat = w₀.file.off.toNat + (sections.map fun x => x.bytes.length).sum
  contents : contents fs.blk (ips file.ip).toDinode =
    splice (contents w₀.fs.blk (w₀.ips w₀.file.ip).toDinode) w₀.file.off.toNat
      (sections.flatMap Section.bytes)

/-- The bytes of every process are in the sections, in order, or still to be written. -/
structure Sharing (w₀ w : Writers P ι) : Prop extends Placed w₀ w.fs w.ips w.file w.sections where
  accounted : ∀ p, share Section.writer Section.bytes w.sections p ++ w.left p =
    share Prod.fst Prod.snd w.calls p
  unfinished : ∀ p c, w.writing p = some c → c.i < c.n

omit [DecidableEq P] in
/-- A section that succeeds appends its bytes and moves the offset. -/
theorem Placed.advance (placed : Placed w₀ w.fs w.ips w.file w.sections) {r : ℤ} {ip : Inode}
    {fs : St} (more : c.i < c.n) (succeeded : ¬r < 0)
    (returned : writei dev (w.ips w.file.ip) c.src w.file.off (BitVec.ofNat 32 c.n₁) w.fs =
      .ok ((r, ip), fs)) {u : Writers P ι} (file : u.file = w.file)
    (sections : u.sections = w.sections) :
    (u.advance p c r).sections =
      w.sections ++ [⟨p, w.file.off.toNat, (List.range c.n₁).map c.src⟩] ∧
      Placed w₀ fs (Function.update w.ips w.file.ip ip) (u.advance p c r).file
        (u.advance p c r).sections := by
  rcases writei_section placed.owned placed.regular returned succeeded
    with ⟨accepted, ret, owned, regular, bytes⟩
  have chunk : (BitVec.ofNat 32 c.n₁).toNat = c.n₁ := by
    rw [BitVec.toNat_ofNat, Nat.mod_eq_of_lt c.n₁_le.2]
  have positive : 0 < c.n₁ := lt_min (by omega) (by decide)
  rw [chunk] at accepted ret bytes
  have size : (w.ips w.file.ip).size.toNat =
      (Fs.contents w.fs.blk (w.ips w.file.ip).toDinode).length :=
    (length_contents _ _).symm
  simp only [rejects, not_or, Nat.not_lt, Nat.not_le] at accepted
  have total : (w.sections.flatMap Section.bytes).length =
      (w.sections.map fun x => x.bytes.length).sum :=
    List.length_flatMap
  have inside : w₀.file.off.toNat ≤
      (Fs.contents w₀.fs.blk (w₀.ips w₀.file.ip).toDinode).length := by
    by_contra beyond
    have := accepted.1
    rw [size, placed.contents, length_splice, placed.off, total] at this
    omega
  have off : (w.file.off + BitVec.ofNat 32 c.n₁).toNat = w.file.off.toNat + c.n₁ := by
    rw [BitVec.toNat_add, chunk, Nat.mod_eq_of_lt accepted.2.1]
  have sections' : (u.advance p c r).sections =
      w.sections ++ [⟨p, w.file.off.toNat, (List.range c.n₁).map c.src⟩] := by
    rw [Writers.advance, if_pos (by omega), ret, Int.toNat_natCast, sections, file]
  have file' : (u.advance p c r).file =
      { w.file with off := w.file.off + BitVec.ofNat 32 c.n₁ } := by
    rw [Writers.advance, if_pos (by omega), ret, BitVec.ofInt_natCast, file]
  rw [sections', file']
  refine ⟨rfl, owned, placed.ip, ?_, placed.consecutive.append placed.off, ?_, ?_⟩
  · change (Function.update w.ips w.file.ip ip w.file.ip).type = T_FILE
    rw [Function.update_self]
    exact regular
  · rw [off, List.map_append, List.sum_append, ← Nat.add_assoc, ← placed.off]
    simp
  · change Fs.contents fs.blk (Function.update w.ips w.file.ip ip w.file.ip).toDinode = _
    rw [Function.update_self, bytes, placed.contents, placed.off, ← total, splice_append inside,
      List.flatMap_append,
      List.flatMap_singleton]

omit [DecidableEq ι] in
/-- A section by process `p`, after which it is at `next`. -/
theorem Sharing.section (sharing : Sharing w₀ w)
    (placed : Placed w₀ w'.fs w'.ips w'.file w'.sections) (writes : w.writing p = some c)
    (calls : w'.calls = w.calls)
    (sections : w'.sections = w.sections ++ [⟨p, w.file.off.toNat, (List.range c.n₁).map c.src⟩])
    {next : Option WriteLoop} (writing : w'.writing = Function.update w.writing p next)
    (left : next.elim [] WriteLoop.left = WriteLoop.left { c with i := c.i + c.n₁ })
    (unfinished : ∀ c', next = some c' → c'.i < c'.n) : Sharing w₀ w' := by
  refine ⟨placed, fun q => ?_, fun q c' writes' => ?_⟩
  · rw [calls, sections, ← sharing.accounted q]
    by_cases self : q = p
    · subst self
      have before : w.left q = (List.range c.n₁).map c.src ++
          WriteLoop.left { c with i := c.i + c.n₁ } := by
        rw [Writers.left, writes, ← c.left_eq]
        rfl
      rw [before, Writers.left, writing, Function.update_self, left, ← List.append_assoc]
      congr 1
      exact share_append_self _
    · rw [share_append_other (Ne.symm self), Writers.left, writing, Function.update_of_ne self,
        Writers.left]
  · rw [writing] at writes'
    by_cases self : q = p
    · subst self
      rw [Function.update_self] at writes'
      exact unfinished c' writes'
    · rw [Function.update_of_ne self] at writes'
      exact sharing.unfinished q c' writes'

omit [DecidableEq ι] in
/-- A call by process `p`, after which it is at `next`. -/
theorem Sharing.call (sharing : Sharing w₀ w) (idle : w.writing p = none)
    (placed : Placed w₀ w'.fs w'.ips w'.file w'.sections) {bytes : List Byte}
    (calls : w'.calls = w.calls ++ [(p, bytes)]) (sections : w'.sections = w.sections)
    {next : Option WriteLoop} (writing : w'.writing = Function.update w.writing p next)
    (left : next.elim [] WriteLoop.left = bytes) (unfinished : ∀ c', next = some c' → c'.i < c'.n) :
    Sharing w₀ w' := by
  refine ⟨placed, fun q => ?_, fun q c' writes' => ?_⟩
  · rw [calls, sections]
    by_cases self : q = p
    · subst self
      have before : w.left q = [] := by
        rw [Writers.left, idle]
        rfl
      have all := sharing.accounted q
      rw [before, List.append_nil] at all
      rw [Writers.left, writing, Function.update_self, left, all]
      exact (share_append_self (q, bytes)).symm
    · have same : share Prod.fst Prod.snd (w.calls ++ [(p, bytes)]) q =
          share Prod.fst Prod.snd w.calls q :=
        share_append_other (Ne.symm self)
      rw [same, ← sharing.accounted q, Writers.left, writing, Function.update_of_ne self,
        Writers.left]
  · rw [writing] at writes'
    by_cases self : q = p
    · subst self
      rw [Function.update_self] at writes'
      exact unfinished c' writes'
    · rw [Function.update_of_ne self] at writes'
      exact sharing.unfinished q c' writes'

/-- A turn of a process keeps the sections consecutive. -/
theorem Sharing.turn (sharing : Sharing w₀ w) (writes : w.writing p = some c)
    (turned : w.turn dev p c = some w') (succeed : ∀ x ∈ w'.replies, x.2 ≠ -1) : Sharing w₀ w' := by
  rw [Writers.turn] at turned
  split at turned
  · cases turned
  next r ip fs returned =>
    obtain ⟨u, current⟩ : ∃ u :
        Writers P ι, { w with fs := fs, ips := Function.update w.ips w.file.ip ip } = u := ⟨_, rfl⟩
    simp only [current] at turned
    by_cases failed : r < 0
    · rw [if_pos failed] at turned
      cases turned
      exact absurd rfl (succeed (p, -1) (List.mem_append_right _ (List.mem_singleton_self _)))
    · rcases sharing.toPlaced.advance (p := p) (u := u) (sharing.unfinished p c writes) failed
        returned
        (congrArg Writers.file current).symm (congrArg Writers.sections current).symm
          with ⟨sections, placed⟩
      rw [show Function.update w.ips w.file.ip ip = u.ips from congrArg Writers.ips current,
        show fs = u.fs from congrArg Writers.fs current] at placed
      have writing := (Writers.writing_advance u p c r).trans
        (congrArg Writers.writing current).symm
      have calls := (Writers.calls_advance u p c r).trans (congrArg Writers.calls current).symm
      rw [if_neg failed] at turned
      split at turned
      · cases turned
      · split at turned
        next more =>
          cases turned
          refine sharing.section ?_ writes calls sections (congrArg (Function.update · p _) writing)
            rfl fun c' same => ?_
          · simpa using placed
          · cases same
            exact more
        next last =>
          cases turned
          refine sharing.section ?_ writes calls sections (congrArg (Function.update · p _) writing)
            ?_ nofun
          · simpa [Writers.reply] using placed
          · have done : c.n - (c.i + c.n₁) = 0 := by omega
            rw [WriteLoop.left, done]
            rfl

omit [DecidableEq ι] in
/-- A new call of `filewrite` has written nothing yet. -/
theorem Sharing.filewrite (sharing : Sharing w₀ w) (idle : w.writing p = none) {addr : Mem} {n : ℤ}
    (succeed : ∀ x ∈ (w.filewrite p addr n).replies, x.2 ≠ -1) :
    Sharing w₀ (w.filewrite p addr n) := by
  have failed : ¬(p, (-1 : ℤ)) ∈ (w.filewrite p addr n).replies := fun mem => succeed _ mem rfl
  rw [Writers.filewrite] at failed ⊢
  by_cases closed : w.file.writable = false
  · rw [if_pos closed] at failed
    exact absurd (List.mem_append_right _ (List.mem_singleton_self _)) failed
  · rw [if_neg closed] at failed ⊢
    by_cases positive : 0 < n
    · rw [if_pos positive]
      refine sharing.call idle sharing.toPlaced rfl rfl rfl ?_ fun c' same => ?_
      · refine List.map_congr_left fun j _ => ?_
        rw [WriteLoop.src, Nat.zero_add]
      · cases same
        change 0 < n.toNat
        omega
    · rw [if_neg positive] at failed ⊢
      by_cases zero : n = 0
      · refine sharing.call idle sharing.toPlaced rfl rfl rfl ?_ nofun
        rw [zero]
        rfl
      · rw [if_neg zero] at failed
        exact absurd (List.mem_append_right _ (List.mem_singleton_self _)) failed

omit [DecidableEq ι] in
/-- At first there are no sections. -/
theorem Sharing.start {fs : St} {ips : ι → Inode} {file : OpenFile ι} (own : Owned fs.sb fs.blk ips)
    (regular : (ips file.ip).type = T_FILE) :
    Sharing (Writers.start (P := P) fs ips file) (Writers.start fs ips file) where
  owned := own
  ip := rfl
  regular := regular
  consecutive := trivial
  off := rfl
  contents := by
    simp [splice, Writers.start]
  accounted := fun _ => rfl
  unfinished := nofun

/-- A call returns at most once more in a step, so what has not failed after the step had not failed
before. -/
theorem replies_of_writeStep {event : WriteEvent P} (stepped : writeStep dev w event = some w') :
    ∀ x ∈ w.replies, x ∈ w'.replies := by
  intro x mem
  have replied : ∀ (u : Writers P ι) p r, u.replies = w.replies → x ∈ (u.reply p r).replies := by
    intro u p r same
    rw [← same] at mem
    exact List.mem_append_left _ mem
  cases event with
  | filewrite p addr n =>
      rw [writeStep] at stepped
      split at stepped
      · cases stepped
        rw [Writers.filewrite]
        split_ifs
        · exact replied _ _ _ rfl
        · exact mem
        · exact replied _ _ _ rfl
        · exact replied _ _ _ rfl
      · cases stepped
  | turn p =>
      rw [writeStep] at stepped
      split at stepped
      · cases stepped
      · rw [Writers.turn] at stepped
        split at stepped
        · cases stepped
        · split at stepped
          · cases stepped
            exact replied _ _ _ (Writers.replies_advance _ _ _ _)
          · split at stepped
            · cases stepped
            · split at stepped
              · cases stepped
                exact (Writers.replies_advance _ _ _ _).symm ▸ mem
              · cases stepped
                exact replied _ _ _ (Writers.replies_advance _ _ _ _)

/-- Every event keeps the sections consecutive. -/
theorem Sharing.step {event : WriteEvent P} (sharing : Sharing w₀ w)
    (stepped : writeStep dev w event = some w') (succeed : ∀ x ∈ w'.replies, x.2 ≠ -1) :
    Sharing w₀ w' := by
  cases event with
  | filewrite p addr n =>
      rw [writeStep] at stepped
      split at stepped
      next idle =>
        cases stepped
        exact sharing.filewrite idle succeed
      · cases stepped
  | turn p =>
      rw [writeStep] at stepped
      split at stepped
      · cases stepped
      next c writes => exact sharing.turn writes stepped succeed

theorem Sharing.run (sharing : Sharing w₀ w) (events : List (WriteEvent P))
    (done : events.foldlM (writeStep dev) w = some w') :
    (∀ x ∈ w'.replies, x.2 ≠ -1) → Sharing w₀ w' := by
  refine (Runs.invariant_of_run (I := fun u => (∀ x ∈ w.replies, x ∈ u.replies) ∧
    ((∀ x ∈ u.replies, x.2 ≠ -1) → Sharing w₀ u)) ?_ (Runs.run_of_foldlM events done)
    ⟨fun _ mem => mem, fun _ => sharing⟩).2
  rintro u u' ⟨event, stepped⟩ ⟨earlier, sharing⟩
  have kept := replies_of_writeStep stepped
  exact ⟨fun x mem => kept x (earlier x mem), fun succeed =>
    (sharing fun x mem => succeed x (kept x mem)).step stepped succeed⟩

/-- Whatever the order of the sections of the calls, as long as no call fails: the sections write
consecutive ranges, from the offset on that the file had, the offset is where the next one begins,
and the bytes of every process are in its sections in order, all of them once it is in no call any
more. -/
theorem writers_consecutive (events : List (WriteEvent P)) (dev : Devsw) (fs : St) (ips : ι → Inode)
    (file : OpenFile ι) (own : Owned fs.sb fs.blk ips) (regular : (ips file.ip).type = T_FILE)
    (run : events.foldlM (writeStep dev) (Writers.start fs ips file) = some w)
    (succeed : ∀ x ∈ w.replies, x.2 ≠ -1) :
    Consecutive Section.off (fun x => x.bytes.length) file.off.toNat w.sections ∧
    (w.sections.Pairwise fun x y => Disjoint (Finset.Ico x.off (x.off + x.bytes.length))
      (Finset.Ico y.off (y.off + y.bytes.length))) ∧
    w.file.off.toNat = file.off.toNat + (w.sections.map fun x => x.bytes.length).sum ∧
    contents w.fs.blk (w.ips file.ip).toDinode =
      splice (contents fs.blk (ips file.ip).toDinode) file.off.toNat
        (w.sections.flatMap Section.bytes) ∧
    (∀ p, share Section.writer Section.bytes w.sections p ++ w.left p =
      share Prod.fst Prod.snd w.calls p) ∧
    ((∀ p, w.writing p = none) →
      w.file.off.toNat = file.off.toNat + (w.calls.map fun x => x.2.length).sum) := by
  have sharing := (Sharing.start own regular).run events run succeed
  have same : w.file.ip = file.ip := sharing.ip
  refine ⟨sharing.consecutive, sharing.consecutive.disjoint, sharing.off, ?_, sharing.accounted,
    fun idle => ?_⟩
  · have whole := sharing.contents
    rw [same] at whole
    exact whole
  · rw [sharing.off]
    have shares : ∀ p, share Section.writer Section.bytes w.sections p =
        share Prod.fst Prod.snd w.calls p := by
      intro p
      rw [← sharing.accounted p, Writers.left, idle p]
      exact (List.append_nil _).symm
    exact congrArg (file.off.toNat + ·) (sum_length_eq shares)

end Runs

/-- Two processes write to the second file. The first one writes in two sections, and the second one
comes in between. -/
def twoWriters : List (WriteEvent Bool) :=
  [.filewrite false (fun j => BitVec.ofNat 8 (j + 7)) 1538,
    .filewrite true (fun j => BitVec.ofNat 8 (j + 1)) 3,
    .turn false, .turn true, .turn false]

/-- Two processes write through one open file; the first write is split, and the other one comes in
between. -/
theorem writers_consecutive_two : ∃ w, twoWriters.foldlM (writeStep noDevices)
      (Writers.start emptySt twoFiles ⟨true, true, 0⟩) = some w ∧
    w.sections.map (fun x => (x.writer, x.off, x.bytes.length)) =
      [(false, 0, 1536), (true, 1536, 3), (false, 1539, 2)] ∧
    contents w.fs.blk (w.ips true).toDinode = w.sections.flatMap Section.bytes ∧
      w.file.off.toNat = 1541 ∧
    share Section.writer Section.bytes w.sections false =
      (List.range 1538).map fun j => BitVec.ofNat 8 (j + 7) := by
  have owned : Owned emptySt.sb emptySt.blk twoFiles := by
    refine Owned.of_empty layout_mkfs low_emptyDisk ?_ (fun _ _ _ => rfl) fun _ => rfl
    decide
  have outcome : (twoWriters.foldlM (writeStep noDevices)
    (Writers.start emptySt twoFiles ⟨true, true, 0⟩)).map
      (fun w => (w.replies, w.sections.map (fun x => (x.writer, x.off, x.bytes.length)),
        decide (w.calls = [(false, (List.range 1538).map fun j => BitVec.ofNat 8 (j + 7)),
        (true, [1, 2, 3])]),
        (w.writing false).isNone && (w.writing true).isNone)) =
        some ([(true, 3), (false, 1538)], [(false, 0, 1536), (true, 1536, 3), (false, 1539, 2)],
          true, true) := by
    decide +kernel
  rcases Option.map_eq_some_iff.mp outcome with ⟨w, run, value⟩
  simp only [Prod.mk.injEq, Bool.and_eq_true, Option.isNone_iff_eq_none, decide_eq_true_eq] at value
  rcases value with ⟨replies, sections, calls, idle⟩
  have succeed : ∀ x ∈ w.replies, x.2 ≠ -1 := by
    rw [replies]
    decide
  rcases writers_consecutive twoWriters noDevices emptySt twoFiles
    ⟨true, true, 0⟩ owned rfl run succeed with
    ⟨_, _, _, final, shares, off⟩
  have start : contents emptySt.blk (twoFiles true).toDinode = [] := rfl
  refine ⟨w, run, sections, ?_, ?_, ?_⟩
  · rw [final, start, splice, List.take_nil, List.drop_nil, List.nil_append, List.append_nil]
  · rw [off (Bool.forall_bool.mpr idle), calls]
    simp
  · have left : w.left false = [] := by
      rw [Writers.left, idle.1]
      rfl
    have all := shares false
    have others : share Prod.fst Prod.snd [(true, ([1, 2, 3] : List Byte))] false = [] := by decide
    rw [left, List.append_nil, calls, share_cons, others, if_pos rfl, List.append_nil] at all
    dsimp only at all
    exact all

end Xv6.Fs
