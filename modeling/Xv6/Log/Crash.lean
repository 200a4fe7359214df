import Xv6.Log.Protocol

/-!
# Crash atomicity of the log

The invariant of this file relates the four places a logged block can live in:
the on-disk header, the log area, the home blocks and the dirty buffers. Its
core is `Recoverable`: at every moment the disk, read through whatever record
its header announces, stands for the contents of the committed transactions.
A crash keeps the disk, so it keeps `Recoverable`, and recovery turns it into
plain contents of the home blocks however often it is interrupted.

`Open` describes the log while a transaction is being collected and copied to
the log area, `Closing` the installation of a committed transaction. `Ledger`
follows the identities of the operations through the history.

The tests of `log_write` run without `log.lock`, so another process can fill
the last slot between the tests and the append. `hasRoom` excludes exactly this:
the append finds its block listed, or a header that still has a free slot.
-/

namespace Xv6.Log

open Redo

/-- The header that has been written is read. -/
theorem getHead_putHead {b : Block} {lh : List ℕ} (short : lh.length ≤ LOGSIZE)
    (small : ∀ n ∈ lh, n < FSSIZE) : getHead (putHead b lh) = lh := by
  simp only [LOGSIZE, MAXOPBLOCKS, FSSIZE] at short small
  have count : (Bytes.getWord (putHead b lh) 0).toInt.toNat = lh.length := by
    rw [putHead, Bytes.getWord_putWords_of_disjoint (by omega),
      Bytes.getWord_putWord (by decide), BitVec.toInt_eq_toNat_of_lt]
    · simp only [BitVec.toNat_ofNat]
      omega
    · simp only [BitVec.toNat_ofNat]
      omega
  have words : Bytes.getWords (putHead b lh) 4 (lh.map (BitVec.ofNat 32)).length =
      lh.map (BitVec.ofNat 32) :=
    Bytes.getWords_putWords (by simp only [List.length_map, BSIZE]; omega)
  rw [List.length_map] at words
  rw [getHead, count, words, List.map_map]
  conv_rhs => rw [← List.map_id lh]
  apply List.map_congr_left
  intro n mem
  have bound := small n mem
  simp only [Function.comp_apply, BitVec.toNat_ofNat, id]
  omega

/-! ## The history of operations -/

/-- Two transactions with no operation in common. -/
def Separate (first second : List Upd) : Prop :=
  ∀ u ∈ first, ∀ v ∈ second, u.op ≠ v.op

/-- No operation has `log_write`s in two transactions, and open operations are uncommitted. -/
structure Ledger (w : World) : Prop where
  separate : (w.hist ++ [w.cur]).Pairwise Separate
  used : ∀ t ∈ w.hist ++ [w.cur], ∀ u ∈ t, u.op < w.nextOp
  named : ∀ p op, (w.pc p).op? = some op → op < w.nextOp
  uncommitted : ∀ p op, (w.pc p).op? = some op → ∀ t ∈ w.hist, ∀ u ∈ t, u.op ≠ op

namespace Ledger

variable {w w' : World}

theorem congr (inv : Ledger w) (hist : w'.hist = w.hist) (cur : w'.cur = w.cur)
    (nextOp : w'.nextOp = w.nextOp)
    (sameOp : ∀ p op, (w'.pc p).op? = some op → (w.pc p).op? = some op) : Ledger w' := by
  constructor
  · rw [hist, cur]
    exact inv.separate
  · rw [hist, cur, nextOp]
    exact inv.used
  · intro p op open_
    rw [nextOp]
    exact inv.named p op (sameOp p op open_)
  · intro p op open_
    rw [hist]
    exact inv.uncommitted p op (sameOp p op open_)

theorem goto (inv : Ledger w) {p : ℕ} {pc : Pc} (hist : w'.hist = w.hist)
    (cur : w'.cur = w.cur) (nextOp : w'.nextOp = w.nextOp)
    (moved : w'.pc = Function.update w.pc p pc)
    (sameOp : ∀ op, pc.op? = some op → (w.pc p).op? = some op) : Ledger w' := by
  apply inv.congr hist cur nextOp
  intro q op open_
  rw [moved] at open_
  by_cases same : q = p
  · subst same
    rw [Function.update_self] at open_
    exact sameOp op open_
  · rwa [Function.update_of_ne same] at open_

/-- Losing the uncommitted updates separates no less. -/
theorem forget (inv : Ledger w) (hist : w'.hist = w.hist) (cur : w'.cur = [])
    (nextOp : w'.nextOp = w.nextOp) (idle : ∀ p, (w'.pc p).op? = none) : Ledger w' := by
  have kept := List.pairwise_append.mp inv.separate
  constructor
  · rw [hist, cur, List.pairwise_append]
    refine ⟨kept.1, List.pairwise_singleton _ _, ?_⟩
    intro t _ t' mem
    rw [List.mem_singleton.mp mem]
    intro u _ v impossible
    cases impossible
  · rw [hist, cur, nextOp]
    intro t mem u
    rcases List.mem_append.mp mem with old | last
    · exact inv.used t (List.mem_append_left _ old) u
    · rw [List.mem_singleton.mp last]
      intro impossible
      cases impossible
  · intro p op open_
    simp [idle p] at open_
  · intro p op open_
    simp [idle p] at open_

/-- The committing `write_head` moves the current transaction into the history. -/
theorem close (inv : Ledger w) (hist : w'.hist = w.hist ++ [w.cur]) (cur : w'.cur = [])
    (nextOp : w'.nextOp = w.nextOp) (idle : ∀ p, (w'.pc p).op? = none) : Ledger w' := by
  constructor
  · rw [hist, cur, List.pairwise_append]
    refine ⟨inv.separate, List.pairwise_singleton _ _, ?_⟩
    intro t _ t' mem
    rw [List.mem_singleton.mp mem]
    intro u _ v impossible
    cases impossible
  · rw [hist, cur, nextOp]
    intro t mem u
    rcases List.mem_append.mp mem with old | last
    · exact inv.used t old u
    · rw [List.mem_singleton.mp last]
      intro impossible
      cases impossible
  · intro p op open_
    simp [idle p] at open_
  · intro p op open_
    simp [idle p] at open_

theorem logWrite (inv : Ledger w) {p : ℕ} {data : Block} (stepped : w.logWrite p data = some w') :
    Ledger w' := by
  unfold World.logWrite at stepped
  split at stepped
  next op b at_pc =>
    cases stepped
    have open_ : (w.pc p).op? = some op := by rw [at_pc]; rfl
    have sameOp : ∀ q op', (Function.update w.pc p (.inOp op) q).op? = some op' →
        (w.pc q).op? = some op' := by
      intro q op' now
      by_cases same : q = p
      · subst same
        rw [Function.update_self] at now
        rw [open_, ← now]
        rfl
      · rwa [Function.update_of_ne same] at now
    have kept := List.pairwise_append.mp inv.separate
    constructor
    · rw [List.pairwise_append]
      refine ⟨kept.1, List.pairwise_singleton _ _, ?_⟩
      intro t mem t' mem'
      rw [List.mem_singleton.mp mem']
      intro u inT v inCur
      rcases List.mem_append.mp inCur with old | new
      · exact kept.2.2 t mem w.cur (List.mem_singleton_self _) u inT v old
      · rw [List.mem_singleton.mp new]
        exact inv.uncommitted p op open_ t mem u inT
    · intro t mem u inT
      rcases List.mem_append.mp mem with old | last
      · exact inv.used t (List.mem_append_left _ old) u inT
      · rw [List.mem_singleton.mp last] at inT
        rcases List.mem_append.mp inT with old | new
        · exact inv.used w.cur (by simp) u old
        · rw [List.mem_singleton.mp new]
          exact inv.named p op open_
    · intro q op' now
      exact inv.named q op' (sameOp q op' now)
    · intro q op' now
      exact inv.uncommitted q op' (sameOp q op' now)
  next => cases stepped

theorem beginOp (inv : Ledger w) {p : ℕ} (stepped : w.beginOp p = some w') : Ledger w' := by
  unfold World.beginOp at stepped
  split at stepped
  · split at stepped
    · cases stepped
      exact inv.goto rfl rfl rfl rfl (fun _ impossible => by cases impossible)
    · split at stepped
      · cases stepped
        exact inv.goto rfl rfl rfl rfl (fun _ impossible => by cases impossible)
      · cases stepped
        have cases_op : ∀ q op, (Function.update w.pc p (.inOp w.nextOp) q).op? = some op →
            op = w.nextOp ∨ (w.pc q).op? = some op := by
          intro q op now
          by_cases same : q = p
          · subst same
            rw [Function.update_self] at now
            left
            exact (Option.some.inj now).symm
          · right
            rwa [Function.update_of_ne same] at now
        constructor
        · exact inv.separate
        · intro t mem u inT
          exact Nat.lt_succ_of_lt (inv.used t mem u inT)
        · intro q op now
          rcases cases_op q op now with rfl | old
          · exact Nat.lt_succ_self _
          · exact Nat.lt_succ_of_lt (inv.named q op old)
        · intro q op now t mem u inT
          rcases cases_op q op now with rfl | old
          · exact (inv.used t (List.mem_append_left _ mem) u inT).ne
          · exact inv.uncommitted q op old t mem u inT
  · cases stepped

theorem wakeup_op?_some {p q op : ℕ} (now : ((w.goto p .out).wakeup.pc q).op? = some op) :
    (w.pc q).op? = some op := by
  rw [Counted.wakeup_op?] at now
  by_cases same : q = p
  · subst same
    simp [World.goto, Pc.op?] at now
  · simpa [World.goto, same] using now

theorem endOp (inv : Ledger w) {p : ℕ} (stepped : w.endOp p = some w') : Ledger w' := by
  unfold World.endOp at stepped
  split at stepped
  · split at stepped
    · cases stepped
    · split at stepped
      · cases stepped
        exact inv.goto rfl rfl rfl rfl (fun _ impossible => by cases impossible)
      · cases stepped
        exact inv.congr rfl rfl rfl (fun _ _ now => wakeup_op?_some now)
  · cases stepped

theorem commit (inv : Ledger w) (counted : Counted w) {c : Config} {p : ℕ}
    (stepped : w.commit c p = some w') : Ledger w' := by
  unfold World.commit at stepped
  split at stepped
  · split at stepped
    · cases stepped
      exact inv.goto rfl rfl rfl rfl (fun _ impossible => by cases impossible)
    · cases stepped
      exact inv.goto rfl rfl rfl rfl (fun _ impossible => by cases impossible)
  · split at stepped
    · cases stepped
      exact inv.goto rfl rfl rfl rfl (fun _ impossible => by cases impossible)
    · cases stepped
      exact inv.goto rfl rfl rfl rfl (fun _ impossible => by cases impossible)
  next at_pc =>
    cases stepped
    have commits := counted.committing.mpr ⟨p, by rw [at_pc]; trivial⟩
    refine inv.close rfl rfl rfl ?_
    intro q
    by_cases same : q = p
    · subst same
      simp [World.goto, Pc.op?]
    · simpa [World.goto, World.writeHead, World.bwrite, same] using counted.op?_eq_none commits q
  · split at stepped
    · cases stepped
      exact inv.goto rfl rfl rfl rfl (fun _ impossible => by cases impossible)
    · cases stepped
      exact inv.goto rfl rfl rfl rfl (fun _ impossible => by cases impossible)
  · cases stepped
    exact inv.goto rfl rfl rfl rfl (fun _ impossible => by cases impossible)
  · cases stepped
    exact inv.congr rfl rfl rfl (fun _ _ now => wakeup_op?_some now)
  · cases stepped

end Ledger

/-! ## The disk and the buffers -/

/-- Read through its header, the disk holds the committed transactions. -/
structure Recoverable (c : Config) (base : Disk) (w : World) : Prop where
  pending : Pending c.Home (contents base w.hist) w.disk (getHead (w.disk c.start))
    (fun i => w.disk (c.start + i + 1))
  short : (getHead (w.disk c.start)).length < c.size

/-- A transaction is being collected, or copied to the log area. -/
structure Open (c : Config) (base : Disk) (w : World) : Prop where
  header : getHead (w.disk c.start) = []
  home : ∀ b ∈ w.lh, b ∈ c.Home ∧ b < FSSIZE
  listed : ∀ b ∈ w.lh, w.bread b = contents base (w.hist ++ [w.cur]) b
  logged : ∀ u ∈ w.cur, u.block ∈ w.lh
  dirty : ∀ b data, w.bufs b = some ⟨data, true⟩ → b ∈ w.lh
  room : w.lh.length ≤ LOGSIZE ∧ w.lh.length < c.size

/-- The first `count` listed blocks have reached the log area. -/
def Copied (c : Config) (base : Disk) (w : World) (count : ℕ) : Prop :=
  ∀ (i : ℕ) (bound : i < w.lh.length), i < count →
    w.disk (c.start + i + 1) = contents base (w.hist ++ [w.cur]) w.lh[i]

/-- A committed transaction is being installed; `count` of its blocks are home. -/
structure Closing (c : Config) (base : Disk) (w : World) (count : ℕ) : Prop where
  header : getHead (w.disk c.start) = w.lh
  installed : Installed (contents base w.hist) w.disk w.lh count
  dirty : ∀ b data, w.bufs b = some ⟨data, true⟩ → b ∈ w.lh.drop count
  cur : w.cur = []

/-- Everything committed is home, but the header may still announce it. -/
structure Settled (c : Config) (base : Disk) (w : World) : Prop where
  settled : ∀ b ∈ c.Home, w.disk b = contents base w.hist b
  clean : ∀ b data, w.bufs b ≠ some ⟨data, true⟩
  lh : w.lh = []
  cur : w.cur = []

/-- What holds while a process is at the given position of a commit. -/
def Stage (c : Config) (base : Disk) (w : World) : Pc → Prop
  | .commit => Open c base w
  | .writeLog tail => Open c base w ∧ Copied c base w tail
  | .writeHead => Open c base w ∧ Copied c base w w.lh.length
  | .installTrans tail => Closing c base w tail
  | .clearHead => Settled c base w
  | .finish => Open c base w
  | _ => True

/-- What holds at the given position of `recover_from_log`. -/
def BootStage (c : Config) (base : Disk) (w : World) : Boot → Prop
  | .readHead => w.cur = [] ∧ ∀ b data, w.bufs b ≠ some ⟨data, true⟩
  | .installTrans tail =>
      Closing c base w tail ∧ ∀ b data, w.bufs b ≠ some ⟨data, true⟩
  | .clearHead => Settled c base w
  | .up => True

/-- The invariant of the logging layer. -/
structure Inv (c : Config) (base : Disk) (w : World) : Prop where
  counted : Counted w
  ledger : Ledger w
  recoverable : Recoverable c base w
  coherent : ∀ b data, w.bufs b = some ⟨data, false⟩ → data = w.disk b
  target : ∀ p op b, w.pc p = .logging op b → b ∈ c.Home ∧ b < FSSIZE
  boot : BootStage c base w w.boot
  idle : w.boot = .up → w.committing = false → Open c base w
  stage : w.boot = .up → ∀ p, Stage c base w (w.pc p)

theorem contents_concat (base : Disk) (hist : List (List Upd)) (cur : List Upd) :
    contents base (hist ++ [cur]) =
      play (contents base hist) (cur.map fun u => (u.block, u.data)) := by
  simp [contents, play_append]

theorem contents_snoc (base : Disk) (hist : List (List Upd)) (cur : List Upd) (u : Upd) :
    contents base (hist ++ [cur ++ [u]]) =
      Function.update (contents base (hist ++ [cur])) u.block u.data := by
  rw [contents_concat, contents_concat, List.map_append, List.map_singleton, play_concat]

theorem contents_of_unlogged {base : Disk} {hist : List (List Upd)} {cur : List Upd} {b : ℕ}
    (unlogged : ∀ u ∈ cur, u.block ≠ b) :
    contents base (hist ++ [cur]) b = contents base hist b := by
  rw [contents_concat]
  apply play_of_notMem
  simp only [List.map_map, List.mem_map, Function.comp_apply, not_exists, not_and]
  exact unlogged

namespace Config

variable {c : Config}

theorem start_notMem_home : c.start ∉ c.Home := by
  have := c.size_pos
  simp only [Home, Set.mem_ofPred_eq]
  omega

theorem slot_notMem_home {i : ℕ} (bound : i + 1 < c.size) : c.start + i + 1 ∉ c.Home := by
  simp only [Home, Set.mem_ofPred_eq]
  omega

theorem ne_start {b : ℕ} (home : b ∈ c.Home) : b ≠ c.start := by
  rintro rfl
  exact start_notMem_home home

theorem ne_slot {b i : ℕ} (home : b ∈ c.Home) (bound : i + 1 < c.size) :
    b ≠ c.start + i + 1 := by
  rintro rfl
  exact slot_notMem_home bound home

end Config

section Stability

variable {c : Config} {base : Disk} {w w' : World}

/-- `w'` differs from `w` in nothing the disk invariant looks at. -/
structure Same (w w' : World) : Prop where
  disk : w'.disk = w.disk
  lh : w'.lh = w.lh
  hist : w'.hist = w.hist
  cur : w'.cur = w.cur
  dirty : ∀ b data, w'.bufs b = some ⟨data, true⟩ ↔ w.bufs b = some ⟨data, true⟩
  bread : ∀ b, w'.bread b = w.bread b

theorem Recoverable.congr (inv : Recoverable c base w) (disk : w'.disk = w.disk)
    (hist : w'.hist = w.hist) : Recoverable c base w' := by
  constructor
  · rw [disk, hist]
    exact inv.pending
  · rw [disk]
    exact inv.short

theorem Open.congr (inv : Open c base w) (same : Same w w') : Open c base w' := by
  constructor
  · rw [same.disk]
    exact inv.header
  · rw [same.lh]
    exact inv.home
  · rw [same.lh, same.hist, same.cur]
    intro b mem
    rw [same.bread b]
    exact inv.listed b mem
  · rw [same.lh, same.cur]
    exact inv.logged
  · intro b data buffered
    rw [same.lh]
    exact inv.dirty b data ((same.dirty b data).mp buffered)
  · rw [same.lh]
    exact inv.room

theorem Copied.congr {count : ℕ} (inv : Copied c base w count) (same : Same w w') :
    Copied c base w' count := by
  intro i bound below
  simp only [same.lh] at bound
  simp only [same.disk, same.lh, same.hist, same.cur]
  exact inv i bound below

theorem Closing.congr {count : ℕ} (inv : Closing c base w count) (same : Same w w') :
    Closing c base w' count := by
  constructor
  · rw [same.disk, same.lh]
    exact inv.header
  · rw [same.disk, same.lh, same.hist]
    exact inv.installed
  · intro b data buffered
    rw [same.lh]
    exact inv.dirty b data ((same.dirty b data).mp buffered)
  · rw [same.cur]
    exact inv.cur

theorem Settled.congr (inv : Settled c base w) (same : Same w w') : Settled c base w' := by
  constructor
  · rw [same.disk, same.hist]
    exact inv.settled
  · intro b data buffered
    exact inv.clean b data ((same.dirty b data).mp buffered)
  · rw [same.lh]
    exact inv.lh
  · rw [same.cur]
    exact inv.cur

theorem Stage.congr {pc : Pc} (inv : Stage c base w pc) (same : Same w w') :
    Stage c base w' pc := by
  cases pc with
  | commit => exact Open.congr inv same
  | writeLog tail => exact ⟨Open.congr inv.1 same, Copied.congr inv.2 same⟩
  | writeHead =>
      refine ⟨Open.congr inv.1 same, ?_⟩
      rw [same.lh]
      exact Copied.congr inv.2 same
  | installTrans tail => exact Closing.congr inv same
  | clearHead => exact Settled.congr inv same
  | finish => exact Open.congr inv same
  | _ => trivial

theorem BootStage.congr {boot : Boot} (inv : BootStage c base w boot) (same : Same w w') :
    BootStage c base w' boot := by
  have clean : (∀ b data, w.bufs b ≠ some ⟨data, true⟩) →
      ∀ b data, w'.bufs b ≠ some ⟨data, true⟩ := by
    intro clean b data buffered
    exact clean b data ((same.dirty b data).mp buffered)
  cases boot with
  | readHead =>
      refine ⟨?_, clean inv.2⟩
      rw [same.cur]
      exact inv.1
  | installTrans tail => exact ⟨Closing.congr inv.1 same, clean inv.2⟩
  | clearHead => exact Settled.congr inv same
  | up => trivial

theorem Stage.of_not_commits {pc : Pc} (outside : ¬pc.Commits) : Stage c base w pc := by
  cases pc <;> first | trivial | exact absurd trivial outside

end Stability

/-! ## Steps that leave the disk alone -/

namespace Inv

variable {c : Config} {base : Disk} {w w' : World}

/-- A step that only moves processes keeps the invariant if their new positions allow it. -/
theorem of_same (inv : Inv c base w) (same : Same w w')
    (boot : w'.boot = .up) (counted : Counted w') (ledger : Ledger w')
    (coherent : ∀ b data, w'.bufs b = some ⟨data, false⟩ → data = w.disk b)
    (target : ∀ p op b, w'.pc p = .logging op b → b ∈ c.Home ∧ b < FSSIZE)
    (idle : w'.committing = false → Open c base w)
    (stage : ∀ p, Stage c base w (w'.pc p)) : Inv c base w' where
  counted := counted
  ledger := ledger
  recoverable := inv.recoverable.congr same.disk same.hist
  coherent := by
    rw [same.disk]
    exact coherent
  target := target
  boot := by
    rw [boot]
    trivial
  idle := fun _ quiet => (idle quiet).congr same
  stage := fun _ p => (stage p).congr same

theorem stage_goto (inv : Inv c base w) (up : w.boot = .up) {p : ℕ} {pc : Pc}
    (arrived : Stage c base w pc) (q : ℕ) : Stage c base w (Function.update w.pc p pc q) := by
  by_cases same : q = p
  · subst same
    rwa [Function.update_self]
  · rw [Function.update_of_ne same]
    exact inv.stage up q

theorem target_goto (inv : Inv c base w) {p : ℕ} {pc : Pc}
    (arrived : ∀ op b, pc = .logging op b → b ∈ c.Home ∧ b < FSSIZE) (q op b : ℕ)
    (logging : Function.update w.pc p pc q = .logging op b) : b ∈ c.Home ∧ b < FSSIZE := by
  by_cases same : q = p
  · subst same
    rw [Function.update_self] at logging
    exact arrived op b logging
  · rw [Function.update_of_ne same] at logging
    exact inv.target q op b logging

/-- Move one process, changing nothing else but the counters. -/
theorem of_goto (inv : Inv c base w) (up : w.boot = .up) {p : ℕ} {pc : Pc}
    (moved : w'.pc = Function.update w.pc p pc) (same : Same w w') (bufs : w'.bufs = w.bufs)
    (boot : w'.boot = .up) (counted : Counted w') (ledger : Ledger w')
    (target : ∀ op b, pc = .logging op b → b ∈ c.Home ∧ b < FSSIZE)
    (idle : w'.committing = false → Open c base w) (arrived : Stage c base w pc) :
    Inv c base w' := by
  apply inv.of_same same boot counted ledger _ _ idle
  · rw [moved]
    exact inv.stage_goto up arrived
  · rw [bufs]
    exact inv.coherent
  · rw [moved]
    exact inv.target_goto target

theorem of_wakeup (inv : Inv c base w) (up : w.boot = .up) {p : ℕ}
    (moved : w'.pc = (w.goto p .out).wakeup.pc) (same : Same w w') (bufs : w'.bufs = w.bufs)
    (boot : w'.boot = .up) (counted : Counted w') (ledger : Ledger w')
    (idle : w'.committing = false → Open c base w) : Inv c base w' := by
  apply inv.of_same same boot counted ledger _ _ idle
  · intro q
    rw [moved, World.wakeup]
    dsimp only
    split
    · trivial
    · exact inv.stage_goto up (show Stage c base w .out from trivial) q
  · rw [bufs]
    exact inv.coherent
  · intro q op b
    rw [moved, World.wakeup]
    dsimp only
    split
    · intro impossible
      cases impossible
    · exact inv.target_goto (fun _ _ impossible => by cases impossible) q op b

theorem beginOp (inv : Inv c base w) (up : w.boot = .up) {p : ℕ}
    (stepped : w.beginOp p = some w') : Inv c base w' := by
  have counted := inv.counted.beginOp up stepped
  have ledger := inv.ledger.beginOp stepped
  unfold World.beginOp at stepped
  split at stepped
  · split at stepped
    · cases stepped
      exact inv.of_goto up rfl ⟨rfl, rfl, rfl, rfl, fun _ _ => Iff.rfl, fun _ => rfl⟩ rfl up
        counted ledger
        (fun _ _ impossible => by cases impossible) (inv.idle up) trivial
    · split at stepped
      · cases stepped
        exact inv.of_goto up rfl ⟨rfl, rfl, rfl, rfl, fun _ _ => Iff.rfl, fun _ => rfl⟩ rfl up
          counted ledger
          (fun _ _ impossible => by cases impossible) (inv.idle up) trivial
      · cases stepped
        exact inv.of_goto up rfl ⟨rfl, rfl, rfl, rfl, fun _ _ => Iff.rfl, fun _ => rfl⟩ rfl up
          counted ledger
          (fun _ _ impossible => by cases impossible) (inv.idle up) trivial
  · cases stepped

theorem logWriteTest (inv : Inv c base w) (up : w.boot = .up) {p b : ℕ}
    (stepped : w.logWriteTest c p b = some w') : Inv c base w' := by
  have counted := inv.counted.logWriteTest up stepped
  unfold World.logWriteTest at stepped
  split at stepped
  next op at_pc =>
    split at stepped
    · cases stepped
    · split at stepped
      · cases stepped
      · split at stepped
        next allowed =>
          cases stepped
          refine inv.of_goto up rfl ⟨rfl, rfl, rfl, rfl, fun _ _ => Iff.rfl, fun _ => rfl⟩ rfl up
            counted ?_ ?_ (inv.idle up) trivial
          · refine inv.ledger.goto rfl rfl rfl rfl ?_
            intro op' now
            rw [at_pc]
            exact now
          · rintro op' b' ⟨⟩
            exact allowed
        next => cases stepped
  next => cases stepped

theorem endOp (inv : Inv c base w) (up : w.boot = .up) {p : ℕ} (stepped : w.endOp p = some w') :
    Inv c base w' := by
  have counted := inv.counted.endOp up stepped
  have ledger := inv.ledger.endOp stepped
  unfold World.endOp at stepped
  split at stepped
  next op at_pc =>
    have quiet : w.committing = false :=
      inv.counted.committing_eq_false (p := p) (by rw [at_pc]; rfl)
    split at stepped
    · cases stepped
    · split at stepped
      · cases stepped
        exact inv.of_goto up rfl ⟨rfl, rfl, rfl, rfl, fun _ _ => Iff.rfl, fun _ => rfl⟩ rfl up
          counted ledger
          (fun _ _ impossible => by cases impossible) (fun _ => inv.idle up quiet)
          (inv.idle up quiet)
      · cases stepped
        exact inv.of_wakeup up rfl ⟨rfl, rfl, rfl, rfl, fun _ _ => Iff.rfl, fun _ => rfl⟩ rfl up
          counted ledger
          (fun _ => inv.idle up quiet)
  next => cases stepped

theorem kill (inv : Inv c base w) (up : w.boot = .up) {p : ℕ} (asleep : w.pc p = .sleeping) :
    Inv c base (w.goto p .woken) := by
  refine inv.of_goto up rfl ⟨rfl, rfl, rfl, rfl, fun _ _ => Iff.rfl, fun _ => rfl⟩ rfl up ?_ ?_
    (fun _ _ impossible => by cases impossible) (inv.idle up) trivial
  · exact inv.counted.goto (by rw [asleep]; rfl) (iff_of_false id (by rw [asleep]; exact id)) rfl
      up rfl rfl
  · exact inv.ledger.goto rfl rfl rfl rfl (fun _ impossible => by cases impossible)

theorem bread_eq_disk (inv : Inv c base w) {b : ℕ} (clean : ∀ data, w.bufs b ≠ some ⟨data, true⟩) :
    w.bread b = w.disk b := by
  unfold World.bread
  split
  next buf cached =>
    rcases buf with ⟨data, dirty⟩
    cases dirty with
    | true => exact absurd cached (clean data)
    | false => exact inv.coherent b data cached
  next => rfl

/-- Reading a block into the cache, or recycling a clean buffer, changes no dirty buffer. -/
theorem of_clean (inv : Inv c base w) {b : ℕ} {buf : Option Buf}
    (before : ∀ data, w.bufs b ≠ some ⟨data, true⟩) (after : ∀ data, buf ≠ some ⟨data, true⟩)
    (coherent : ∀ data, buf = some ⟨data, false⟩ → data = w.disk b) (free : ℕ) :
    Inv c base { w with bufs := Function.update w.bufs b buf, free := free } := by
  have same : Same w { w with bufs := Function.update w.bufs b buf, free := free } := by
    refine ⟨rfl, rfl, rfl, rfl, ?_, ?_⟩
    · intro b' data
      by_cases eq : b' = b
      · subst eq
        simp [before data, after data]
      · simp [Function.update_of_ne eq]
    · intro b'
      by_cases eq : b' = b
      · subst eq
        rw [inv.bread_eq_disk before, World.bread]
        dsimp only
        rw [Function.update_self]
        rcases buf with _ | ⟨data, dirty⟩
        · rfl
        · cases dirty with
          | true => exact absurd rfl (after data)
          | false => exact coherent data rfl
      · simp [World.bread, Function.update_of_ne eq]
  constructor
  · exact inv.counted.congr (fun _ => rfl) (fun _ => Iff.rfl) rfl rfl inv.counted.booting
  · exact inv.ledger.congr rfl rfl rfl (fun _ _ now => now)
  · exact inv.recoverable.congr rfl rfl
  · intro b' data
    by_cases eq : b' = b
    · subst eq
      simpa using coherent data
    · simpa [Function.update_of_ne eq] using inv.coherent b' data
  · exact inv.target
  · exact inv.boot.congr same
  · intro up quiet
    exact (inv.idle up quiet).congr same
  · intro up p
    exact (inv.stage up p).congr same

theorem bget (inv : Inv c base w) {b : ℕ} (got : w.bget b = some w') : Inv c base w' := by
  unfold World.bget at got
  split_ifs at got with cached
  · cases got
    exact inv
  · cases got
    have uncached : w.bufs b = none := by simpa using cached
    apply inv.of_clean
    · simp [uncached]
    · simp
    · intro data same
      simpa using same.symm

theorem fetch (inv : Inv c base w) {bs : List ℕ} (fetched : w.fetch bs = some w') :
    Inv c base w' := by
  induction bs generalizing w with
  | nil =>
      cases fetched
      exact inv
  | cons b bs ih =>
      rcases Option.bind_eq_some_iff.mp fetched with ⟨w₁, got, rest⟩
      exact ih (inv.bget got) rest

theorem recycle (inv : Inv c base w) {b : ℕ} {data : Block}
    (cached : w.bufs b = some ⟨data, false⟩) (free : ℕ) :
    Inv c base { w with bufs := Function.update w.bufs b none, free := free } := by
  apply inv.of_clean
  · simp [cached]
  · simp
  · simp

end Inv

/-! ## Steps that write -/

/-- The append of `log_write` finds its block listed, or the header with a free slot. -/
def hasRoom (c : Config) (w : World) (p : ℕ) : Bool :=
  match w.pc p with
  | .logging _ b => b ∈ w.lh ∨ (w.lh.length < LOGSIZE ∧ w.lh.length < c.size - 1)
  | _ => true

namespace Inv

variable {c : Config} {base : Disk} {w w' : World}

theorem logWrite (inv : Inv c base w) (up : w.boot = .up) {p : ℕ} {data : Block}
    (room : hasRoom c w p = true) (stepped : w.logWrite p data = some w') : Inv c base w' := by
  have counted := inv.counted.logWrite up stepped
  have ledger := inv.ledger.logWrite stepped
  unfold World.logWrite at stepped
  split at stepped
  next op b at_pc =>
    cases stepped
    simp only [hasRoom, at_pc, decide_eq_true_eq] at room
    have quiet : w.committing = false :=
      inv.counted.committing_eq_false (p := p) (by rw [at_pc]; rfl)
    have opened := inv.idle up quiet
    have home := inv.target p op b at_pc
    have listed_b : b ∈ (if b ∈ w.lh then w.lh else w.lh ++ [b]) := by
      split
      · assumption
      · simp
    have sub : ∀ b' ∈ w.lh, b' ∈ (if b ∈ w.lh then w.lh else w.lh ++ [b]) := by
      intro b' mem
      split
      · exact mem
      · exact List.mem_append_left _ mem
    have split_mem : ∀ b' ∈ (if b ∈ w.lh then w.lh else w.lh ++ [b]), b' = b ∨ b' ∈ w.lh := by
      intro b' mem
      split at mem
      · exact Or.inr mem
      · rcases List.mem_append.mp mem with old | new
        · exact Or.inr old
        · exact Or.inl (List.mem_singleton.mp new)
    have reopened : Open c base
        { w.goto p (.inOp op) with
          lh := if b ∈ w.lh then w.lh else w.lh ++ [b]
          bufs := Function.update w.bufs b (some ⟨data, true⟩)
          cur := w.cur ++ [⟨op, b, data⟩] } := by
      constructor
      · exact opened.header
      · intro b' mem
        rcases split_mem b' mem with rfl | old
        · exact home
        · exact opened.home b' old
      · intro b' mem
        change _ = contents base (w.hist ++ [w.cur ++ [_]]) b'
        rw [contents_snoc]
        by_cases same : b' = b
        · subst same
          simp [World.bread]
        · rcases split_mem b' mem with eq | old
          · exact absurd eq same
          · simpa [World.bread, World.goto, Function.update_of_ne same] using opened.listed b' old
      · intro u mem
        rcases List.mem_append.mp mem with old | new
        · exact sub _ (opened.logged u old)
        · rw [List.mem_singleton.mp new]
          exact listed_b
      · intro b' data' buffered
        by_cases same : b' = b
        · rw [same]
          exact listed_b
        · apply sub
          apply opened.dirty b' data'
          simpa [Function.update_of_ne same] using buffered
      · change (if b ∈ w.lh then w.lh else w.lh ++ [b]).length ≤ LOGSIZE ∧
          (if b ∈ w.lh then w.lh else w.lh ++ [b]).length < c.size
        have bound := opened.room
        split
        · exact bound
        next unlisted =>
          rcases room with listed | free
          · exact absurd listed unlisted
          · simp only [List.length_append, List.length_singleton]
            omega
    constructor
    · exact counted
    · exact ledger
    · exact inv.recoverable.congr rfl rfl
    · intro b' data' buffered
      by_cases same : b' = b
      · subst same
        simp at buffered
      · exact inv.coherent b' data' (by simpa [Function.update_of_ne same] using buffered)
    · exact inv.target_goto (fun _ _ impossible => by cases impossible)
    · change BootStage c base _ w.boot
      rw [up]
      trivial
    · intro _ _
      exact reopened
    · intro _ q
      exact Stage.of_not_commits (counted.notCommits quiet q)
  next => cases stepped

theorem bwrite_coherent (inv : Inv c base w) {b : ℕ} {data : Block} :
    ∀ b' data', (w.bwrite b data).bufs b' = some ⟨data', false⟩ →
      data' = (w.bwrite b data).disk b' := by
  intro b' data' buffered
  by_cases same : b' = b
  · subst same
    simpa [World.bwrite] using buffered.symm
  · simp only [World.bwrite, Function.update_of_ne same] at buffered ⊢
    exact inv.coherent b' data' buffered

/-- A `bwrite` inside an operation that changes neither the disk nor what readers see. -/
theorem bwrite_same (inv : Inv c base w) (up : w.boot = .up) {p op b : ℕ} {data : Block}
    (at_pc : w.pc p = .inOp op) (seen : w.bread b = data) (onDisk : w.disk b = data) :
    Inv c base (w.bwrite b data) := by
  have quiet : w.committing = false :=
    inv.counted.committing_eq_false (p := p) (by rw [at_pc]; rfl)
  have opened := inv.idle up quiet
  have counted : Counted (w.bwrite b data) :=
    inv.counted.congr (fun _ => rfl) (fun _ => Iff.rfl) rfl rfl inv.counted.booting
  have disk : (w.bwrite b data).disk = w.disk := by
    rw [World.bwrite, ← onDisk, Function.update_eq_self]
  have view : ∀ b', (w.bwrite b data).bread b' = w.bread b' := by
    intro b'
    by_cases same : b' = b
    · subst same
      rw [seen]
      simp [World.bwrite, World.bread]
    · simp [World.bwrite, World.bread, Function.update_of_ne same]
  constructor
  · exact counted
  · exact inv.ledger.congr rfl rfl rfl (fun _ _ now => now)
  · exact inv.recoverable.congr disk rfl
  · exact inv.bwrite_coherent
  · exact inv.target
  · change BootStage c base _ w.boot
    rw [up]
    trivial
  · intro _ _
    constructor
    · rw [disk]
      exact opened.header
    · exact opened.home
    · intro b' mem
      rw [view]
      exact opened.listed b' mem
    · exact opened.logged
    · intro b' data' buffered
      by_cases same : b' = b
      · subst same
        simp [World.bwrite] at buffered
      · exact opened.dirty b' data' (by simpa [World.bwrite, same] using buffered)
    · exact opened.room
  · intro _ q
    exact Stage.of_not_commits (counted.notCommits quiet q)

/-- During a commit only the committing process's position says something about the disk. -/
theorem of_commit (inv : Inv c base w) {p : ℕ} {pc : Pc} (counted : Counted w')
    (ledger : Ledger w') (moved : w'.pc = Function.update w.pc p pc) (commits : pc.Commits)
    (up : w'.boot = .up) (recoverable : Recoverable c base w')
    (coherent : ∀ b data, w'.bufs b = some ⟨data, false⟩ → data = w'.disk b)
    (stage : Stage c base w' pc) : Inv c base w' := by
  have here : w'.pc p = pc := by rw [moved, Function.update_self]
  constructor
  · exact counted
  · exact ledger
  · exact recoverable
  · exact coherent
  · rw [moved]
    apply inv.target_goto
    rintro op b rfl
    exact commits.elim
  · rw [up]
    trivial
  · intro _ quiet
    exact absurd (here ▸ commits) (counted.notCommits quiet p)
  · intro _ q
    by_cases same : q = p
    · subst same
      rwa [here]
    · apply Stage.of_not_commits
      intro other
      exact same (counted.unique q p other (here ▸ commits))

theorem settled_of_open (inv : Inv c base w) (opened : Open c base w) :
    ∀ b ∈ c.Home, w.disk b = contents base w.hist b := by
  intro b home
  apply inv.recoverable.pending.settled b home
  rw [opened.header]
  simp

end Inv

section Writes

variable {c : Config} {base : Disk} {w : World}

theorem Recoverable.of_settled (header : getHead (w.disk c.start) = [])
    (settled : ∀ b ∈ c.Home, w.disk b = contents base w.hist b) : Recoverable c base w := by
  constructor
  · rw [header]
    exact Pending.of_settled settled
  · rw [header]
    exact c.size_pos

/-- One block of `write_log`. -/
theorem Open.writeLog (opened : Open c base w) {tail : ℕ} (bound : tail < w.lh.length)
    (copied : Copied c base w tail) :
    Open c base (w.bwrite (c.start + tail + 1) (w.bread w.lh[tail])) ∧
      Copied c base (w.bwrite (c.start + tail + 1) (w.bread w.lh[tail])) (tail + 1) := by
  have inLog : tail + 1 < c.size := by
    have := opened.room.2
    omega
  have apart : ∀ b ∈ w.lh, b ≠ c.start + tail + 1 := fun b mem =>
    Config.ne_slot (opened.home b mem).1 inLog
  have fetched := opened.listed _ (List.getElem_mem bound)
  constructor
  · constructor
    · simpa [World.bwrite, show c.start ≠ c.start + tail + 1 by omega] using opened.header
    · exact opened.home
    · intro b mem
      simpa [World.bwrite, World.bread, Function.update_of_ne (apart b mem)] using
        opened.listed b mem
    · exact opened.logged
    · intro b data buffered
      by_cases same : b = c.start + tail + 1
      · subst same
        simp [World.bwrite] at buffered
      · exact opened.dirty b data (by simpa [World.bwrite, same] using buffered)
    · exact opened.room
  · intro i inRange below
    by_cases same : i = tail
    · subst same
      simpa [World.bwrite] using fetched
    · change Function.update w.disk _ _ (c.start + i + 1) =
        contents base (w.hist ++ [w.cur]) w.lh[i]
      rw [Function.update_of_ne (by omega)]
      exact copied i inRange (by omega)

/-- The committing `write_head`. -/
theorem Open.writeHead (opened : Open c base w)
    (settled : ∀ b ∈ c.Home, w.disk b = contents base w.hist b)
    (copied : Copied c base w w.lh.length) (w' : World) (disk : w'.disk = (w.writeHead c).disk)
    (hist : w'.hist = w.hist ++ [w.cur]) :
    getHead (w'.disk c.start) = w.lh ∧ Recoverable c base w' := by
  have header : getHead (w'.disk c.start) = w.lh := by
    rw [disk]
    simpa [World.writeHead, World.bwrite] using
      getHead_putHead opened.room.1 (fun b mem => (opened.home b mem).2)
  refine ⟨header, ?_⟩
  constructor
  · rw [header, hist]
    constructor
    · exact fun b mem => (opened.home b mem).1
    · intro i bound
      rw [disk]
      simpa [World.writeHead, World.bwrite, show c.start + i + 1 ≠ c.start by omega] using
        copied i bound bound
    · intro b home unlisted
      rw [disk, contents_of_unlogged]
      · simpa [World.writeHead, World.bwrite, Config.ne_start home] using settled b home
      · rintro u mem rfl
        exact unlisted (opened.logged u mem)
  · rw [header]
    exact opened.room.2

/-- One block of `install_trans`, in a commit or in recovery. -/
theorem Closing.installTrans {tail : ℕ} (closing : Closing c base w tail)
    (recoverable : Recoverable c base w) (bound : tail < w.lh.length)
    (fetched : w.bread (c.start + tail + 1) = w.disk (c.start + tail + 1)) :
    Closing c base (w.installTrans c tail w.lh[tail]) (tail + 1) ∧
      Recoverable c base (w.installTrans c tail w.lh[tail]) := by
  have pending := recoverable.pending
  have short := recoverable.short
  rw [closing.header] at pending short
  have home := pending.recorded_home _ (List.getElem_mem bound)
  have disk : (w.installTrans c tail w.lh[tail]).disk =
      Function.update w.disk w.lh[tail] (w.disk (c.start + tail + 1)) := by
    simp [World.installTrans, World.bwrite, fetched]
  have header : getHead ((w.installTrans c tail w.lh[tail]).disk c.start) = w.lh := by
    rw [disk, Function.update_of_ne (Config.ne_start home).symm, closing.header]
  have slot : ∀ i < w.lh.length, (w.installTrans c tail w.lh[tail]).disk (c.start + i + 1) =
      w.disk (c.start + i + 1) := by
    intro i inRange
    rw [disk, Function.update_of_ne (Config.ne_slot home (by omega)).symm]
  constructor
  · constructor
    · exact header
    · rw [disk]
      exact closing.installed.install pending bound
    · intro b data buffered
      have distinct : b ≠ w.lh[tail] := by
        rintro rfl
        simp [World.installTrans, World.bwrite] at buffered
      have old := closing.dirty b data
        (by simpa [World.installTrans, World.bwrite, distinct] using buffered)
      rw [List.drop_eq_getElem_cons bound, List.mem_cons] at old
      exact old.resolve_left distinct
    · exact closing.cur
  · constructor
    · rw [header]
      have installed := pending.install bound
      constructor
      · exact installed.recorded_home
      · intro i inRange
        rw [slot i inRange]
        exact installed.copied i inRange
      · rw [disk]
        exact installed.settled
    · rw [header]
      exact short

/-- The end of `install_trans`, where `log.lh.n` is reset. -/
theorem Closing.done {tail : ℕ} (closing : Closing c base w tail)
    (recoverable : Recoverable c base w) (all : w.lh.length ≤ tail) {w' : World}
    (disk : w'.disk = w.disk) (hist : w'.hist = w.hist) (cur : w'.cur = w.cur)
    (bufs : w'.bufs = w.bufs) (lh : w'.lh = []) : Settled c base w' := by
  have pending := recoverable.pending
  rw [closing.header] at pending
  constructor
  · rw [disk, hist]
    exact pending.complete closing.installed all
  · intro b data buffered
    rw [bufs] at buffered
    have mem := closing.dirty b data buffered
    rw [List.drop_eq_nil_of_le all] at mem
    cases mem
  · exact lh
  · rw [cur, closing.cur]

/-- The `write_head` that erases the transaction. -/
theorem Settled.clearHead (settled : Settled c base w) {w' : World}
    (disk : w'.disk = (w.writeHead c).disk) (bufs : w'.bufs = (w.writeHead c).bufs)
    (hist : w'.hist = w.hist) (cur : w'.cur = w.cur) (lh : w'.lh = w.lh) :
    Open c base w' ∧ Recoverable c base w' := by
  have header : getHead (w'.disk c.start) = [] := by
    rw [disk]
    simp only [World.writeHead, World.bwrite, Function.update_self, settled.lh]
    exact getHead_putHead (by simp) (by simp)
  constructor
  · constructor
    · exact header
    · simp [lh, settled.lh]
    · simp [lh, settled.lh]
    · simp [cur, settled.cur]
    · intro b data buffered
      rw [bufs] at buffered
      by_cases same : b = c.start
      · subst same
        simp [World.writeHead, World.bwrite] at buffered
      · simp only [World.writeHead, World.bwrite, Function.update_of_ne same] at buffered
        exact absurd buffered (settled.clean b data)
    · rw [lh, settled.lh]
      exact ⟨Nat.zero_le _, c.size_pos⟩
  · apply Recoverable.of_settled header
    intro b home
    rw [disk, hist]
    simpa [World.writeHead, World.bwrite, Config.ne_start home] using settled.settled b home

end Writes

namespace Inv

variable {c : Config} {base : Disk} {w w' : World}

theorem slot_bread {tail : ℕ} (inv : Inv c base w) (closing : Closing c base w tail)
    (bound : tail < w.lh.length) :
    w.bread (c.start + tail + 1) = w.disk (c.start + tail + 1) := by
  apply inv.bread_eq_disk
  intro data buffered
  have pending := inv.recoverable.pending
  have short := inv.recoverable.short
  rw [closing.header] at pending short
  have home := pending.recorded_home _ (List.mem_of_mem_drop (closing.dirty _ _ buffered))
  exact Config.slot_notMem_home (by omega) home

theorem commit (inv : Inv c base w) (up : w.boot = .up) {p : ℕ}
    (stepped : w.commit c p = some w') : Inv c base w' := by
  have counted := inv.counted.commit up stepped
  have ledger := inv.ledger.commit inv.counted stepped
  have stage := inv.stage up p
  unfold World.commit at stepped
  split at stepped
  next at_pc =>
    rw [at_pc] at stage
    split at stepped
    · cases stepped
      refine inv.of_commit counted ledger rfl trivial up (inv.recoverable.congr rfl rfl)
        inv.coherent ⟨stage.congr ⟨rfl, rfl, rfl, rfl, fun _ _ => Iff.rfl, fun _ => rfl⟩, ?_⟩
      intro i _ impossible
      omega
    · cases stepped
      exact inv.of_commit counted ledger rfl trivial up (inv.recoverable.congr rfl rfl)
        inv.coherent (stage.congr ⟨rfl, rfl, rfl, rfl, fun _ _ => Iff.rfl, fun _ => rfl⟩)
  next tail at_pc =>
    rw [at_pc] at stage
    split at stepped
    next b listed =>
      cases stepped
      rcases List.getElem?_eq_some_iff.mp listed with ⟨bound, rfl⟩
      have written := stage.1.writeLog bound stage.2
      have same : ∀ w₁ : World, Same w₁ (w₁.goto p (.writeLog (tail + 1))) := fun w₁ =>
        ⟨rfl, rfl, rfl, rfl, fun _ _ => Iff.rfl, fun _ => rfl⟩
      refine inv.of_commit counted ledger rfl trivial up ?_ inv.bwrite_coherent
        ⟨written.1.congr (same _), written.2.congr (same _)⟩
      refine Recoverable.of_settled written.1.header ?_
      intro b home
      have inLog : tail + 1 < c.size := by
        have := stage.1.room.2
        omega
      simpa [World.goto, World.bwrite, Config.ne_slot home inLog] using
        inv.settled_of_open stage.1 b home
    next unlisted =>
      cases stepped
      have all := List.getElem?_eq_none_iff.mp unlisted
      refine inv.of_commit counted ledger rfl trivial up (inv.recoverable.congr rfl rfl)
        inv.coherent ⟨stage.1.congr ⟨rfl, rfl, rfl, rfl, fun _ _ => Iff.rfl, fun _ => rfl⟩, ?_⟩
      intro i bound _
      exact stage.2 i bound (lt_of_lt_of_le bound all)
  next at_pc =>
    rw [at_pc] at stage
    cases stepped
    have written := stage.1.writeHead (inv.settled_of_open stage.1) stage.2
      { (w.writeHead c).goto p (.installTrans 0) with hist := w.hist ++ [w.cur], cur := [] }
      rfl rfl
    refine inv.of_commit counted ledger rfl trivial up written.2 inv.bwrite_coherent ?_
    constructor
    · exact written.1
    · exact Installed.zero
    · intro b data buffered
      by_cases same : b = c.start
      · subst same
        simp [World.goto, World.writeHead, World.bwrite] at buffered
      · apply stage.1.dirty b data
        simpa [World.goto, World.writeHead, World.bwrite, same] using buffered
    · rfl
  next tail at_pc =>
    rw [at_pc] at stage
    split at stepped
    next b listed =>
      cases stepped
      rcases List.getElem?_eq_some_iff.mp listed with ⟨bound, rfl⟩
      have installed := Closing.installTrans stage inv.recoverable bound
        (inv.slot_bread stage bound)
      exact inv.of_commit counted ledger rfl trivial up (installed.2.congr rfl rfl)
        inv.bwrite_coherent (installed.1.congr
          ⟨rfl, rfl, rfl, rfl, fun _ _ => Iff.rfl, fun _ => rfl⟩)
    next unlisted =>
      cases stepped
      have all := List.getElem?_eq_none_iff.mp unlisted
      exact inv.of_commit counted ledger rfl trivial up (inv.recoverable.congr rfl rfl)
        inv.coherent (Closing.done stage inv.recoverable all rfl rfl rfl rfl rfl)
  next at_pc =>
    rw [at_pc] at stage
    cases stepped
    have cleared : Open c base ((w.writeHead c).goto p .finish) ∧
        Recoverable c base ((w.writeHead c).goto p .finish) :=
      Settled.clearHead stage rfl rfl rfl rfl rfl
    exact inv.of_commit counted ledger rfl trivial up cleared.2 inv.bwrite_coherent cleared.1
  next at_pc =>
    rw [at_pc] at stage
    cases stepped
    exact inv.of_wakeup up rfl ⟨rfl, rfl, rfl, rfl, fun _ _ => Iff.rfl, fun _ => rfl⟩ rfl up
      counted ledger
      (fun _ => stage)
  next => cases stepped

theorem recoverFromLog (inv : Inv c base w) (stepped : w.recoverFromLog c = some w') :
    Inv c base w' := by
  have counted := inv.counted.recoverFromLog stepped
  have stage := inv.boot
  unfold World.recoverFromLog at stepped
  split at stepped
  next at_boot =>
    rw [at_boot] at stage
    cases stepped
    have header : w.bread c.start = w.disk c.start :=
      inv.bread_eq_disk fun data => stage.2 c.start data
    constructor
    · exact counted
    · exact inv.ledger.congr rfl rfl rfl (fun _ _ now => now)
    · exact inv.recoverable.congr rfl rfl
    · exact inv.coherent
    · exact inv.target
    · refine ⟨⟨?_, Installed.zero, ?_, stage.1⟩, stage.2⟩
      · exact congrArg getHead header.symm
      · intro b data buffered
        exact absurd buffered (stage.2 b data)
    · intro impossible
      cases impossible
    · intro impossible
      cases impossible
  next tail at_boot =>
    rw [at_boot] at stage
    split at stepped
    next b listed =>
      cases stepped
      rcases List.getElem?_eq_some_iff.mp listed with ⟨bound, rfl⟩
      have installed := stage.1.installTrans inv.recoverable bound
        (inv.slot_bread stage.1 bound)
      constructor
      · exact counted
      · exact inv.ledger.congr rfl rfl rfl (fun _ _ now => now)
      · exact installed.2.congr rfl rfl
      · exact inv.bwrite_coherent
      · exact inv.target
      · refine ⟨installed.1.congr ⟨rfl, rfl, rfl, rfl, fun _ _ => Iff.rfl, fun _ => rfl⟩, ?_⟩
        intro b data buffered
        by_cases same : b = w.lh[tail]
        · subst same
          simp [World.installTrans, World.bwrite] at buffered
        · apply stage.2 b data
          simpa [World.installTrans, World.bwrite, same] using buffered
      · intro impossible
        cases impossible
      · intro impossible
        cases impossible
    next unlisted =>
      cases stepped
      have all := List.getElem?_eq_none_iff.mp unlisted
      constructor
      · exact counted
      · exact inv.ledger.congr rfl rfl rfl (fun _ _ now => now)
      · exact inv.recoverable.congr rfl rfl
      · exact inv.coherent
      · exact inv.target
      · exact stage.1.done inv.recoverable all rfl rfl rfl rfl rfl
      · intro impossible
        cases impossible
      · intro impossible
        cases impossible
  next at_boot =>
    rw [at_boot] at stage
    cases stepped
    have cleared : Open c base { w.writeHead c with boot := .up } ∧
        Recoverable c base { w.writeHead c with boot := .up } :=
      Settled.clearHead stage rfl rfl rfl rfl rfl
    constructor
    · exact counted
    · exact inv.ledger.congr rfl rfl rfl (fun _ _ now => now)
    · exact cleared.2
    · exact inv.bwrite_coherent
    · exact inv.target
    · trivial
    · intro _ _
      exact cleared.1
    · intro _ p
      have out := inv.counted.booting (by simp [at_boot]) p
      change Stage c base _ (w.pc p)
      rw [out]
      trivial
  next => cases stepped

/-- A crash leaves nothing to ask for but the disk and the history. -/
theorem of_crash (ledger : Ledger w) (recoverable : Recoverable c base w) :
    Inv c base w.crash where
  counted := Counted.crash w
  ledger := ledger.forget rfl rfl rfl (fun _ => rfl)
  recoverable := recoverable.congr rfl rfl
  coherent := fun _ _ impossible => by cases impossible
  target := fun _ _ _ impossible => by cases impossible
  boot := ⟨rfl, fun _ _ impossible => by cases impossible⟩
  idle := fun impossible => by cases impossible
  stage := fun impossible => by cases impossible

theorem crash (inv : Inv c base w) : Inv c base w.crash := of_crash inv.ledger inv.recoverable

theorem init {disk : Disk} (empty : getHead (disk c.start) = []) :
    Inv c disk (World.init disk) where
  counted := Counted.init disk
  ledger := by
    constructor <;> simp [World.init, Pc.op?]
  recoverable := Recoverable.of_settled empty (fun _ _ => rfl)
  coherent := fun _ _ impossible => by cases impossible
  target := fun _ _ _ impossible => by cases impossible
  boot := ⟨rfl, fun _ _ impossible => by cases impossible⟩
  idle := fun impossible => by cases impossible
  stage := fun impossible => by cases impossible

end Inv

end Xv6.Log
