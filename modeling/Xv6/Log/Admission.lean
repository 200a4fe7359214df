import Xv6.Log.Commits

/-!
# Admission to the log

`begin_op` reserves `MAXOPBLOCKS` blocks for every operation that it lets in. The
reservations are kept: each operation that stays within its own has room left for the
blocks that it has not logged yet, so a transaction never has more than `LOGSIZE` blocks.

The tests of `log_write` count differently. They stop the kernel when `LOGSIZE - 1`
blocks are listed, since `mkfs` lays out `LOGSIZE` blocks and one of them is the header,
and they do so before they look whether the block is listed already.
-/

namespace Xv6.Log

open Relation

variable {c : Config} {w w' : World} {p q op b : ℕ}

/-- The distinct blocks passed to `log_write` since the last commit. -/
def logged (w : World) : Finset ℕ := (w.cur.map Upd.block).toFinset

/-- Those of them that the given operation has passed. -/
def loggedBy (w : World) (op : ℕ) : Finset ℕ :=
  ((w.cur.filter fun u => u.op = op).map Upd.block).toFinset

/-- A call of `log_write` leaves the operation with at most `MAXOPBLOCKS` distinct blocks. -/
def Modest (w : World) : Act → Prop
  | .logWriteTest p b => ∀ op, w.pc p = .inOp op → (insert b (loggedBy w op)).card ≤ MAXOPBLOCKS
  | _ => True

def ModestStep (c : Config) (w w' : World) : Prop := ∃ act, Modest w act ∧ step c w act = some w'

/-! ## Reservations -/

/-- What each process inside an operation may still log, within the room of the header. -/
structure Reserved (w : World) (room : ℕ → ℕ) (ops : Finset ℕ) : Prop where
  mem : ∀ p, p ∈ ops ↔ (w.pc p).op?.isSome
  card : ops.card = w.outstanding
  most : ∀ p, room p ≤ MAXOPBLOCKS
  left : ∀ p op, (w.pc p).op? = some op → MAXOPBLOCKS ≤ room p + (loggedBy w op).card
  pending : ∀ p op b, w.pc p = .logging op b → (insert b (loggedBy w op)).card ≤ MAXOPBLOCKS
  fits : w.boot = .up → w.committing = false → w.lh.length + ∑ p ∈ ops, room p ≤ LOGSIZE
  named : ∀ p op, (w.pc p).op? = some op → op < w.nextOp
  used : ∀ u ∈ w.cur, u.op < w.nextOp
  distinct : ∀ p q op, (w.pc p).op? = some op → (w.pc q).op? = some op → p = q

theorem mem_loggedBy : b ∈ loggedBy w op ↔ ∃ u ∈ w.cur, u.op = op ∧ u.block = b := by
  simp [loggedBy, and_assoc]

theorem loggedBy_congr (cur : w'.cur = w.cur) : loggedBy w' op = loggedBy w op := by
  rw [loggedBy, loggedBy, cur]

namespace Reserved

variable {room : ℕ → ℕ} {ops : Finset ℕ}

/-- Nobody enters or leaves an operation, and nothing is logged. -/
theorem congr (inv : Reserved w room ops)
    (moved : ∀ q, (w'.pc q).op? = (w.pc q).op? ∧ ∀ op b, w'.pc q = .logging op b →
      w.pc q = .logging op b ∨ (insert b (loggedBy w op)).card ≤ MAXOPBLOCKS)
    (outstanding : w'.outstanding = w.outstanding) (cur : w'.cur = w.cur)
    (nextOp : w'.nextOp = w.nextOp)
    (fits : w'.boot = .up → w'.committing = false →
      w'.lh.length + ∑ p ∈ ops, room p ≤ LOGSIZE) : Reserved w' room ops where
  mem := by
    intro q
    rw [(moved q).1]
    exact inv.mem q
  card := inv.card.trans outstanding.symm
  most := inv.most
  left := by
    intro q op
    rw [(moved q).1, loggedBy_congr cur]
    exact inv.left q op
  pending := by
    intro q op b logging
    rw [loggedBy_congr cur]
    rcases (moved q).2 op b logging with before | modest
    · exact inv.pending q op b before
    · exact modest
  fits := fits
  named := by
    intro q op
    rw [(moved q).1, nextOp]
    exact inv.named q op
  used := by
    rw [cur, nextOp]
    exact inv.used
  distinct := by
    intro q r op
    rw [(moved q).1, (moved r).1]
    exact inv.distinct q r op

/-- Without operations nothing is reserved. -/
theorem of_idle (idle : ∀ q, (w.pc q).op? = none) (none : w.outstanding = 0)
    (used : ∀ u ∈ w.cur, u.op < w.nextOp)
    (fits : w.boot = .up → w.committing = false → w.lh.length ≤ LOGSIZE) :
    Reserved w (fun _ => 0) ∅ where
  mem := by simp [idle]
  card := none.symm
  most := fun _ => Nat.zero_le _
  left := by simp [idle]
  pending := by
    intro q op b logging
    have outside := idle q
    rw [logging] at outside
    cases outside
  fits := by simpa using fits
  named := by simp [idle]
  used := used
  distinct := by simp [idle]

/-- `begin_op` reserves room for its operation. -/
theorem beginOp (inv : Reserved w room ops) (stepped : w.beginOp p = some w') :
    ∃ room ops, Reserved w' room ops := by
  unfold World.beginOp at stepped
  split_ifs at stepped with waiting commits full
  · cases stepped
    refine ⟨room, ops, inv.congr ?_ rfl rfl rfl inv.fits⟩
    intro q
    by_cases same : q = p
    · subst same
      rcases waiting with out | woken
      · simp [World.goto, Pc.op?, out]
      · simp [World.goto, Pc.op?, woken]
    · simp only [World.goto, Function.update_of_ne same, true_and]
      exact fun op b logging => Or.inl logging
  · cases stepped
    refine ⟨room, ops, inv.congr ?_ rfl rfl rfl inv.fits⟩
    intro q
    by_cases same : q = p
    · subst same
      rcases waiting with out | woken
      · simp [World.goto, Pc.op?, out]
      · simp [World.goto, Pc.op?, woken]
    · simp only [World.goto, Function.update_of_ne same, true_and]
      exact fun op b logging => Or.inl logging
  · cases stepped
    have outside : (w.pc p).op? = none := by
      rcases waiting with out | woken
      · rw [out]
        rfl
      · rw [woken]
        rfl
    have fresh : p ∉ ops := by simp [inv.mem, outside]
    have others : ∀ q op, (Function.update w.pc p (.inOp w.nextOp) q).op? = some op →
        q = p ∧ op = w.nextOp ∨ (w.pc q).op? = some op := by
      intro q op now
      by_cases same : q = p
      · subst same
        rw [Function.update_self] at now
        exact Or.inl ⟨rfl, (Option.some.inj now).symm⟩
      · rw [Function.update_of_ne same] at now
        exact Or.inr now
    refine ⟨Function.update room p MAXOPBLOCKS, insert p ops, ?_⟩
    refine ⟨?_, ?_, ?_, ?_, ?_, ?_, ?_, ?_, ?_⟩
    · intro q
      by_cases same : q = p
      · subst same
        simp [World.goto, Pc.op?]
      · simp [World.goto, same, inv.mem]
    · rw [Finset.card_insert_of_notMem fresh, inv.card]
    · intro q
      by_cases same : q = p
      · subst same
        rw [Function.update_self]
      · rw [Function.update_of_ne same]
        exact inv.most q
    · intro q op now
      rcases others q op now with ⟨rfl, _⟩ | before
      · rw [Function.update_self]
        exact Nat.le_add_right _ _
      · have other : q ≠ p := by
          rintro rfl
          rw [outside] at before
          cases before
        rw [Function.update_of_ne other]
        exact inv.left q op before
    · intro q op b logging
      have other : q ≠ p := by
        rintro rfl
        simp [World.goto] at logging
      refine inv.pending q op b ?_
      simpa [World.goto, other] using logging
    · intro _ _
      have small : ∑ q ∈ ops, room q ≤ ops.card * MAXOPBLOCKS :=
        Finset.sum_le_card_nsmul _ _ _ fun q _ => inv.most q
      have kept : ∑ q ∈ ops, Function.update room p MAXOPBLOCKS q = ∑ q ∈ ops, room q :=
        Finset.sum_congr rfl fun q mem => Function.update_of_ne (by rintro rfl; exact fresh mem) _ _
      rw [Finset.sum_insert fresh, Function.update_self, kept]
      rw [inv.card] at small
      change w.lh.length + _ ≤ LOGSIZE
      simp only [MAXOPBLOCKS, LOGSIZE] at *
      omega
    · intro q op now
      rcases others q op now with ⟨_, rfl⟩ | before
      · exact Nat.lt_succ_self _
      · exact Nat.lt_succ_of_lt (inv.named q op before)
    · intro u mem
      exact Nat.lt_succ_of_lt (inv.used u mem)
    · intro q r op nowQ nowR
      rcases others q op nowQ with ⟨rfl, rfl⟩ | beforeQ
      · rcases others r _ nowR with ⟨rfl, _⟩ | beforeR
        · rfl
        · exact absurd (inv.named r _ beforeR) (lt_irrefl _)
      · rcases others r op nowR with ⟨rfl, rfl⟩ | beforeR
        · exact absurd (inv.named q _ beforeQ) (lt_irrefl _)
        · exact inv.distinct q r op beforeQ beforeR

/-- A block that is not listed yet is paid for from the room of its operation. -/
theorem logWrite (inv : Reserved w room ops) (counted : Counted w) (filled : Filled w)
    (up : w.boot = .up) {data : Block} (stepped : w.logWrite p data = some w') :
    ∃ room ops, Reserved w' room ops := by
  unfold World.logWrite at stepped
  split at stepped
  next op b at_pc =>
    have active : (w.pc p).op? = some op := by
      rw [at_pc]
      rfl
    have isSome : (w.pc p).op?.isSome := by simp [active]
    have quiet := counted.committing_eq_false isSome
    have listed := filled.listed up quiet
    cases stepped
    have sameOps : ∀ q, (Function.update w.pc p (.inOp op) q).op? = (w.pc q).op? := by
      intro q
      by_cases same : q = p
      · subst same
        rw [Function.update_self, active]
        rfl
      · rw [Function.update_of_ne same]
    have more : ∀ op', loggedBy { w with cur := w.cur ++ [⟨op, b, data⟩] } op' =
        if op = op' then insert b (loggedBy w op') else loggedBy w op' := by
      intro op'
      ext x
      split_ifs with same
      · simp only [mem_loggedBy, List.mem_append, List.mem_singleton, Finset.mem_insert]
        constructor
        · rintro ⟨u, old | rfl, by_, rfl⟩
          · exact Or.inr ⟨u, old, by_, rfl⟩
          · exact Or.inl rfl
        · rintro (rfl | ⟨u, old, by_, rfl⟩)
          · exact ⟨_, Or.inr rfl, same, rfl⟩
          · exact ⟨u, Or.inl old, by_, rfl⟩
      · simp only [mem_loggedBy, List.mem_append, List.mem_singleton]
        constructor
        · rintro ⟨u, old | rfl, by_, rfl⟩
          · exact ⟨u, old, by_, rfl⟩
          · exact absurd by_ same
        · rintro ⟨u, old, by_, rfl⟩
          exact ⟨u, Or.inl old, by_, rfl⟩
    have fitted := inv.fits up quiet
    have inOps : p ∈ ops := (inv.mem p).mpr isSome
    have pending := inv.pending p op b at_pc
    have left := inv.left p op active
    refine ⟨Function.update room p (if b ∈ w.lh then room p else room p - 1), ops, ?_⟩
    refine ⟨?_, inv.card, ?_, ?_, ?_, ?_, ?_, ?_, ?_⟩
    · intro q
      change q ∈ ops ↔ (Function.update w.pc p (.inOp op) q).op?.isSome
      rw [sameOps]
      exact inv.mem q
    · intro q
      by_cases same : q = p
      · subst same
        rw [Function.update_self]
        have := inv.most q
        split_ifs <;> omega
      · rw [Function.update_of_ne same]
        exact inv.most q
    · intro q op' now
      change (Function.update w.pc p (.inOp op) q).op? = some op' at now
      rw [sameOps] at now
      have grown := more op'
      change MAXOPBLOCKS ≤ _ + (loggedBy { w with cur := w.cur ++ [⟨op, b, data⟩] } op').card
      rw [grown]
      by_cases same : q = p
      · subst same
        have which : op = op' := by
          rw [active] at now
          exact Option.some.inj now
        subst which
        rw [Function.update_self, if_pos rfl]
        split_ifs with known
        · exact left.trans (Nat.add_le_add_left (Finset.card_le_card (Finset.subset_insert _ _)) _)
        · have new : b ∉ loggedBy w op := by
            rw [mem_loggedBy]
            rintro ⟨u, mem, _, block⟩
            exact known ((listed.mem b).mpr ⟨u, mem, block⟩)
          rw [Finset.card_insert_of_notMem new] at pending ⊢
          omega
      · have other : op ≠ op' := by
          rintro rfl
          exact same (inv.distinct q p op now active)
        rw [Function.update_of_ne same, if_neg other]
        exact inv.left q op' now
    · intro q op' b' logging
      change Function.update w.pc p (.inOp op) q = .logging op' b' at logging
      have other : q ≠ p := by
        rintro rfl
        simp at logging
      rw [Function.update_of_ne other] at logging
      have otherOp : op ≠ op' := by
        rintro rfl
        exact other (inv.distinct q p op (by rw [logging]; rfl) active)
      have grown := more op'
      rw [if_neg otherOp] at grown
      change (insert b' (loggedBy { w with cur := w.cur ++ [⟨op, b, data⟩] } op')).card ≤ _
      rw [grown]
      exact inv.pending q op' b' logging
    · intro _ _
      change (if b ∈ w.lh then w.lh else w.lh ++ [b]).length + _ ≤ LOGSIZE
      rw [← Finset.add_sum_erase _ _ inOps] at fitted ⊢
      have kept : ∑ q ∈ ops.erase p,
          Function.update room p (if b ∈ w.lh then room p else room p - 1) q =
            ∑ q ∈ ops.erase p, room q :=
        Finset.sum_congr rfl fun q mem => Function.update_of_ne (Finset.ne_of_mem_erase mem) _ _
      rw [kept, Function.update_self]
      split_ifs with known
      · exact fitted
      · have new : b ∉ loggedBy w op := by
          rw [mem_loggedBy]
          rintro ⟨u, mem, _, block⟩
          exact known ((listed.mem b).mpr ⟨u, mem, block⟩)
        rw [Finset.card_insert_of_notMem new] at pending
        rw [List.length_append, List.length_singleton]
        omega
    · intro q op' now
      change (Function.update w.pc p (.inOp op) q).op? = some op' at now
      rw [sameOps] at now
      exact inv.named q op' now
    · intro u mem
      rcases List.mem_append.mp mem with old | new
      · exact inv.used u old
      · rw [List.mem_singleton.mp new]
        exact inv.named p op active
    · intro q r op' nowQ nowR
      change (Function.update w.pc p (.inOp op) q).op? = some op' at nowQ
      change (Function.update w.pc p (.inOp op) r).op? = some op' at nowR
      rw [sameOps] at nowQ nowR
      exact inv.distinct q r op' nowQ nowR
  next => cases stepped

/-- `end_op` gives back the room that has not been used. -/
theorem endOp (inv : Reserved w room ops) (up : w.boot = .up) (stepped : w.endOp p = some w') :
    ∃ room ops, Reserved w' room ops := by
  unfold World.endOp at stepped
  split at stepped
  next op at_pc =>
    have inOps : p ∈ ops := (inv.mem p).mpr (by simp [at_pc, Pc.op?])
    have erased : (ops.erase p).card = w.outstanding - 1 := by
      rw [Finset.card_erase_of_mem inOps, inv.card]
    -- The process is out, and the others are where they were.
    have leaves : ∀ w' : World, (∀ q, (w'.pc q).op? = if q = p then none else (w.pc q).op?) →
        (∀ q op b, w'.pc q = .logging op b → w.pc q = .logging op b) →
        w'.outstanding = w.outstanding - 1 → w'.cur = w.cur → w'.nextOp = w.nextOp →
        (w'.boot = .up → w'.committing = false → w.committing = false ∧ w'.lh = w.lh) →
        Reserved w' room (ops.erase p) := by
      intro w' sameOps logging outstanding cur nextOp quiet
      have before : ∀ q op, (w'.pc q).op? = some op → (w.pc q).op? = some op := by
        intro q op now
        rw [sameOps] at now
        split_ifs at now
        exact now
      refine ⟨?_, erased.trans outstanding.symm, inv.most, ?_, ?_, ?_, ?_, ?_, ?_⟩
      · intro q
        rw [Finset.mem_erase, inv.mem, sameOps]
        by_cases same : q = p
        · simp [same]
        · simp [same]
      · intro q op now
        rw [loggedBy_congr cur]
        exact inv.left q op (before q op now)
      · intro q op b now
        rw [loggedBy_congr cur]
        exact inv.pending q op b (logging q op b now)
      · intro up' quiet'
        rcases quiet up' quiet' with ⟨was, lh⟩
        have fitted := inv.fits up was
        rw [lh]
        rw [← Finset.add_sum_erase _ _ inOps] at fitted
        omega
      · intro q op now
        rw [nextOp]
        exact inv.named q op (before q op now)
      · rw [cur, nextOp]
        exact inv.used
      · intro q r op nowQ nowR
        exact inv.distinct q r op (before q op nowQ) (before r op nowR)
    split_ifs at stepped with commits
    · cases stepped
      refine ⟨room, ops.erase p, leaves _ ?_ ?_ rfl rfl rfl ?_⟩
      · intro q
        by_cases same : q = p
        · simp [World.goto, same, Pc.op?]
        · simp [World.goto, same]
      · intro q op b now
        by_cases same : q = p
        · simp [World.goto, same] at now
        · simpa [World.goto, same] using now
      · intro _ impossible
        cases impossible
    · cases stepped
      refine ⟨room, ops.erase p, leaves _ ?_ ?_ rfl rfl rfl ?_⟩
      · intro q
        change ((w.goto p .out).wakeup.pc q).op? = _
        rw [Counted.wakeup_op?]
        by_cases same : q = p
        · simp [World.goto, same, Pc.op?]
        · simp [World.goto, same]
      · intro q op b now
        change (w.goto p .out).wakeup.pc q = .logging op b at now
        simp only [World.wakeup] at now
        split_ifs at now
        by_cases same : q = p
        · simp [World.goto, same] at now
        · simpa [World.goto, same] using now
      · exact fun _ quiet => ⟨quiet, rfl⟩
  next => cases stepped

/-- The commit gives the whole log back. -/
theorem commit (inv : Reserved w room ops) (counted : Counted w) (counted' : Counted w')
    (filled' : Filled w') (stepped : w.commit c p = some w') :
    ∃ room ops, Reserved w' room ops := by
  have inCommit : (w.pc p).Commits := by
    unfold World.commit at stepped
    split at stepped <;> first | (rename_i at_pc; rw [at_pc]; trivial) | cases stepped
  have commits : w.committing = true := counted.committing.mpr ⟨p, inCommit⟩
  have nobody : w'.outstanding = 0 := by
    rw [(commit_counts stepped).1]
    exact counted.alone commits
  have idle : ∀ q, (w'.pc q).op? = none := by
    intro q
    rcases counted'.counted with ⟨ops', card, mem⟩
    rw [nobody, Finset.card_eq_zero] at card
    subst card
    simpa using mem q
  have history : w'.nextOp = w.nextOp ∧ (w'.cur = w.cur ∨ w'.cur = []) := by
    unfold World.commit at stepped
    split at stepped
    · split_ifs at stepped
      · cases stepped
        exact ⟨rfl, Or.inl rfl⟩
      · cases stepped
        exact ⟨rfl, Or.inl rfl⟩
    · split at stepped
      · cases stepped
        exact ⟨rfl, Or.inl rfl⟩
      · cases stepped
        exact ⟨rfl, Or.inl rfl⟩
    · cases stepped
      exact ⟨rfl, Or.inr rfl⟩
    · split at stepped
      · cases stepped
        exact ⟨rfl, Or.inl rfl⟩
      · cases stepped
        exact ⟨rfl, Or.inl rfl⟩
    · cases stepped
      exact ⟨rfl, Or.inl rfl⟩
    · cases stepped
      exact ⟨rfl, Or.inl rfl⟩
    · cases stepped
  refine ⟨fun _ => 0, ∅, of_idle idle nobody ?_ ?_⟩
  · intro u mem
    rw [history.1]
    rcases history.2 with same | forgotten
    · exact inv.used u (same ▸ mem)
    · rw [forgotten] at mem
      cases mem
  · intro up quiet
    rw [filled'.idle up quiet nobody]
    exact Nat.zero_le _

/-- Every modest action keeps the reservations. -/
theorem perform (inv : Reserved w room ops) (counted : Counted w) (filled : Filled w) {act : Act}
    (modest : Modest w act) (performed : Log.perform c w act = some w') :
    ∃ room ops, Reserved w' room ops := by
  have filled' := filled.perform counted performed
  cases act with
  | crash =>
      cases performed
      refine ⟨fun _ => 0, ∅, of_idle (fun _ => rfl) rfl (fun u mem => ?_) fun up => ?_⟩
      · cases mem
      · cases up
  | recover =>
      have down : w.boot ≠ .up := by
        intro up
        simp [Log.perform, World.recoverFromLog, up] at performed
      have out : ∀ q, w'.pc q = .out := by
        intro q
        rw [recoverFromLog_pc performed, counted.booting down]
      have idle : ∀ q, (w'.pc q).op? = none := by
        intro q
        rw [out q]
        rfl
      have none : w'.outstanding = 0 := by
        rcases (counted.perform performed).counted with ⟨ops', card, mem⟩
        rw [← card, Finset.card_eq_zero, Finset.eq_empty_iff_forall_notMem]
        intro q
        rw [mem, idle]
        simp
      have kept : w'.cur = w.cur ∧ w'.nextOp = w.nextOp := by
        simp only [Log.perform, World.recoverFromLog] at performed
        split at performed
        · cases performed
          exact ⟨rfl, rfl⟩
        · split at performed
          · cases performed
            exact ⟨rfl, rfl⟩
          · cases performed
            exact ⟨rfl, rfl⟩
        · cases performed
          exact ⟨rfl, rfl⟩
        · cases performed
      refine ⟨fun _ => 0, ∅, of_idle idle none ?_ ?_⟩
      · rw [kept.1, kept.2]
        exact inv.used
      · intro up quiet
        rw [filled'.idle up quiet none]
        exact Nat.zero_le _
  | beginOp p =>
      simp only [Log.perform, Option.ite_none_right_eq_some] at performed
      exact inv.beginOp performed.2
  | kill p =>
      simp only [Log.perform, Option.ite_none_right_eq_some] at performed
      rcases performed with ⟨⟨_, asleep⟩, performed⟩
      cases performed
      refine ⟨room, ops, inv.congr ?_ rfl rfl rfl inv.fits⟩
      intro q
      by_cases same : q = p
      · subst same
        simp [World.goto, Pc.op?, asleep]
      · simp only [World.goto, Function.update_of_ne same, true_and]
        exact fun op b logging => Or.inl logging
  | bread b =>
      simp only [Log.perform, Option.ite_none_right_eq_some] at performed
      rcases performed with ⟨_, performed⟩
      cases performed
      exact ⟨room, ops, inv⟩
  | recycle b =>
      simp only [Log.perform] at performed
      split at performed
      · split_ifs at performed
        cases performed
        exact ⟨room, ops, inv.congr (fun _ => ⟨rfl, fun _ _ => Or.inl⟩) rfl rfl rfl inv.fits⟩
      · cases performed
  | logWriteTest p b =>
      simp only [Log.perform, World.logWriteTest, Option.ite_none_right_eq_some] at performed
      rcases performed with ⟨_, performed⟩
      split at performed
      next op at_pc =>
        split_ifs at performed
        cases performed
        refine ⟨room, ops, inv.congr ?_ rfl rfl rfl inv.fits⟩
        intro q
        by_cases same : q = p
        · subst same
          simp only [World.goto, Function.update_self, at_pc, Pc.op?, true_and]
          rintro op' b' ⟨⟩
          exact Or.inr (modest op at_pc)
        · simp only [World.goto, Function.update_of_ne same, true_and]
          exact fun op b logging => Or.inl logging
      next => cases performed
  | logWrite p data =>
      simp only [Log.perform, Option.ite_none_right_eq_some] at performed
      exact inv.logWrite counted filled performed.1 performed.2
  | bwrite p b data =>
      simp only [Log.perform] at performed
      split at performed
      · simp only [Option.ite_none_right_eq_some] at performed
        rcases performed with ⟨_, performed⟩
        cases performed
        exact ⟨room, ops, inv.congr (fun _ => ⟨rfl, fun _ _ => Or.inl⟩) rfl rfl rfl inv.fits⟩
      · cases performed
  | endOp p =>
      simp only [Log.perform, Option.ite_none_right_eq_some] at performed
      exact inv.endOp performed.1 performed.2
  | commit p =>
      have counted' := counted.perform performed
      simp only [Log.perform, Option.ite_none_right_eq_some] at performed
      exact inv.commit counted counted' filled' performed.2

theorem fetch (inv : Reserved w room ops) {bs : List ℕ} (fetched : w.fetch bs = some w') :
    Reserved w' room ops := by
  rcases fetch_eq fetched with ⟨bufs, free, rfl⟩
  exact inv.congr (fun _ => ⟨rfl, fun _ _ => Or.inl⟩) rfl rfl rfl inv.fits

theorem step (inv : Reserved w room ops) (counted : Counted w) (filled : Filled w) {act : Act}
    (modest : Modest w act) (stepped : Log.step c w act = some w') :
    ∃ room ops, Reserved w' room ops := by
  rcases Option.bind_eq_some_iff.mp stepped with ⟨w₁, fetched, performed⟩
  have modest₁ : Modest w₁ act := by
    rcases fetch_eq fetched with ⟨bufs, free, rfl⟩
    cases act <;> exact modest
  exact (inv.fetch fetched).perform (counted.fetch fetched) (filled.fetch fetched) modest₁ performed

end Reserved

/-- In every modest run the open operations have their room. -/
theorem reserved_of_run {disk : Disk} (run : ReflTransGen (ModestStep c) (World.init disk) w) :
    Counted w ∧ Filled w ∧ ∃ room ops, Reserved w room ops := by
  induction run with
  | refl =>
      refine ⟨Counted.init disk, Filled.init disk, fun _ => 0, ∅,
        Reserved.of_idle (fun _ => rfl) rfl (fun u mem => ?_) fun up => ?_⟩
      · cases mem
      · cases up
  | tail _ last ih =>
      rcases last with ⟨act, modest, stepped⟩
      rcases ih with ⟨counted, filled, room, ops, reserved⟩
      exact ⟨counted.step stepped, filled.step counted stepped,
        reserved.step counted filled modest stepped⟩

/-! ## The test of `log_write` -/

theorem card_logged (listed : Listed w) : (logged w).card = w.lh.length := by
  rw [← List.toFinset_card_of_nodup listed.nodup]
  congr 1
  ext b
  simp [logged, listed.mem]

/--
With the log that `mkfs` lays out, a call of `log_write` passes the tests if and only if
fewer than `LOGSIZE - 1` distinct blocks have been logged since the last commit. The
reservations of `begin_op` promise no more than `LOGSIZE`.
-/
theorem logWrite_passes_iff {disk : Disk}
    (run : ReflTransGen (ModestStep .mkfs) (World.init disk) w) (at_pc : w.pc p = .inOp op)
    (home : b ∈ Config.mkfs.Home) (bound : b < FSSIZE) :
    ((step .mkfs w (.logWriteTest p b)).isSome ↔ (logged w).card < LOGSIZE - 1) ∧
      (logged w).card ≤ LOGSIZE := by
  rcases reserved_of_run run with ⟨counted, filled, room, ops, reserved⟩
  have up : w.boot = .up := by
    by_contra down
    rw [counted.booting down p] at at_pc
    cases at_pc
  have active : (w.pc p).op?.isSome := by simp [at_pc, Pc.op?]
  have quiet := counted.committing_eq_false active
  have inTrans := counted.outstanding_pos active
  have fits := reserved.fits up quiet
  rw [card_logged (filled.listed up quiet)]
  refine ⟨?_, by omega⟩
  rw [step_of_no_reads rfl, perform, if_pos up, World.logWriteTest, at_pc]
  constructor
  · intro passes
    by_contra full
    have tooBig : w.lh.length ≥ LOGSIZE ∨ w.lh.length ≥ Config.mkfs.size - 1 :=
      Or.inr (Nat.not_lt.mp full)
    simp only [if_pos tooBig] at passes
    cases passes
  · intro small
    have notTooBig : ¬(w.lh.length ≥ LOGSIZE ∨ w.lh.length ≥ Config.mkfs.size - 1) := by
      rintro (full | full)
      · exact absurd (small.trans (by decide)) (Nat.not_lt.mpr full)
      · exact absurd small (Nat.not_lt.mpr full)
    simp only [if_neg notTooBig, if_neg (Nat.not_lt.mpr inTrans), if_pos (And.intro home bound)]
    rfl

/-- An operation calls `log_write` on at most `MAXOPBLOCKS` distinct blocks, as `Modest` asks. -/
def modest (w : World) : Act → Bool
  | .logWriteTest p b =>
      match w.pc p with
      | .inOp op => (insert b (loggedBy w op)).card ≤ MAXOPBLOCKS
      | _ => true
  | _ => true

theorem modest_iff {act : Act} : modest w act = true ↔ Modest w act := by
  cases act with
  | logWriteTest p b =>
      simp only [modest, Modest]
      split
      next op at_pc => simp [at_pc]
      next other => simpa using fun op at_pc => absurd at_pc (other op)
  | _ => simp [modest, Modest]

/-- Three operations log all their blocks, but for those of the last one, which logs `count`. -/
def thirty (count : ℕ) : List Act :=
  List.replicate 3 .recover ++ [.beginOp 0, .beginOp 1, .beginOp 2] ++
    logCalls 0 100 10 ++ logCalls 1 110 10 ++ logCalls 2 120 count

/-- There is room for block 29. -/
theorem logWrite_passes_twentyNine : ∃ w, w.pc 2 = .inOp 2 ∧ (logged w).card = 28 ∧
    (step .mkfs w (.logWriteTest 2 128)).isSome := by
  have outcome : ((execute .mkfs modest (World.init blank) (thirty 8)).map fun w =>
      (w.pc 2, (logged w).card)) = some (.inOp 2, 28) := by
    decide +kernel
  rcases Option.map_eq_some_iff.mp outcome with ⟨w, executed, observed⟩
  simp only [Prod.mk.injEq] at observed
  have run : ReflTransGen (ModestStep .mkfs) (World.init blank) w :=
    run_of_execute (fun w w' act allowed stepped => ⟨act, modest_iff.mp allowed, stepped⟩) executed
  refine ⟨w, observed.1, observed.2, ?_⟩
  refine (logWrite_passes_iff run observed.1 (by decide) (by decide)).1.mpr ?_
  rw [observed.2]
  decide

/-- There is none for block 30. -/
theorem not_logWrite_passes_thirty : ¬∀ w, ReflTransGen (ModestStep .mkfs) (World.init blank) w →
    ∀ p op b, w.pc p = .inOp op → b ∈ Config.mkfs.Home → b < FSSIZE →
      Modest w (.logWriteTest p b) → (step .mkfs w (.logWriteTest p b)).isSome := by
  intro passes
  have outcome : ((execute .mkfs modest (World.init blank) (thirty 9)).map fun w =>
      (w.pc 2, modest w (.logWriteTest 2 129), (step .mkfs w (.logWriteTest 2 129)).isSome)) =
        some (.inOp 2, true, false) := by
    decide +kernel
  rcases Option.map_eq_some_iff.mp outcome with ⟨w, executed, observed⟩
  simp only [Prod.mk.injEq] at observed
  rcases observed with ⟨at_pc, allowed, refused⟩
  have run : ReflTransGen (ModestStep .mkfs) (World.init blank) w :=
    run_of_execute (fun w w' act allowed stepped => ⟨act, modest_iff.mp allowed, stepped⟩) executed
  rw [passes w run 2 2 129 at_pc (by decide) (by decide) (modest_iff.mp allowed)] at refused
  cases refused

end Xv6.Log
