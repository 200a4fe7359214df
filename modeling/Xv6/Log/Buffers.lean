import Xv6.Log.Machine

/-!
# The buffers of the log

A step that reads blocks gets a buffer for each of them first, which changes
neither the disk nor what readers see. Every buffer is free or holds a block,
so no more than `NBUF` blocks are cached at any time.
-/

namespace Xv6.Log

variable {c : Config} {w w' : World} {b : ℕ} {bs : List ℕ}

/-! ## Getting buffers -/

theorem bget_eq (got : w.bget b = some w') :
    ∃ bufs free, w' = { w with bufs := bufs, free := free } := by
  unfold World.bget at got
  split_ifs at got
  · exact ⟨w.bufs, w.free, (Option.some.inj got).symm⟩
  · exact ⟨_, _, (Option.some.inj got).symm⟩

/-- Reading blocks changes nothing but the buffers. -/
theorem fetch_eq (fetched : w.fetch bs = some w') :
    ∃ bufs free, w' = { w with bufs := bufs, free := free } := by
  induction bs generalizing w with
  | nil => exact ⟨w.bufs, w.free, (Option.some.inj fetched).symm⟩
  | cons b bs ih =>
      rcases Option.bind_eq_some_iff.mp fetched with ⟨w₁, got, rest⟩
      rcases bget_eq got with ⟨bufs, free, rfl⟩
      rcases ih rest with ⟨bufs', free', rfl⟩
      exact ⟨bufs', free', rfl⟩

/-- Reading a block into a buffer changes nothing for readers. -/
theorem bget_bread (got : w.bget b = some w') : w'.bread = w.bread := by
  unfold World.bget at got
  split_ifs at got with cached
  · cases got
    rfl
  · cases got
    have uncached : w.bufs b = none := by simpa using cached
    funext b'
    by_cases same : b' = b
    · subst same
      simp [World.bread, uncached]
    · simp [World.bread, Function.update_of_ne same]

/-- Readers see what they saw before. -/
theorem fetch_bread (fetched : w.fetch bs = some w') : w'.bread = w.bread := by
  induction bs generalizing w with
  | nil =>
      cases fetched
      rfl
  | cons b bs ih =>
      rcases Option.bind_eq_some_iff.mp fetched with ⟨w₁, got, rest⟩
      exact (ih rest).trans (bget_bread got)

/-- Buffers in use are kept. -/
theorem bget_kept {b' : ℕ} {buf : Buf} (got : w.bget b = some w') (cached : w.bufs b' = some buf) :
    w'.bufs b' = some buf := by
  unfold World.bget at got
  split_ifs at got with here
  · cases got
    exact cached
  · cases got
    have other : b' ≠ b := by
      rintro rfl
      rw [cached] at here
      exact here rfl
    simpa [Function.update_of_ne other] using cached

/-- What is cached stays cached. -/
theorem fetch_kept {b' : ℕ} {buf : Buf} (fetched : w.fetch bs = some w')
    (cached : w.bufs b' = some buf) : w'.bufs b' = some buf := by
  induction bs generalizing w with
  | nil =>
      cases fetched
      exact cached
  | cons b bs ih =>
      rcases Option.bind_eq_some_iff.mp fetched with ⟨w₁, got, rest⟩
      exact ih rest (bget_kept got cached)

/-- No buffer becomes dirty by it, and none clean. -/
theorem bget_dirty {b' : ℕ} {data : Block} (got : w.bget b = some w') :
    w'.bufs b' = some ⟨data, true⟩ ↔ w.bufs b' = some ⟨data, true⟩ := by
  unfold World.bget at got
  split_ifs at got with cached
  · cases got
    exact Iff.rfl
  · cases got
    by_cases same : b' = b
    · subst same
      have uncached : w.bufs b' = none := by simpa using cached
      simp [uncached]
    · simp [Function.update_of_ne same]

/-- What is read is clean. -/
theorem fetch_dirty {b' : ℕ} {data : Block} (fetched : w.fetch bs = some w') :
    w'.bufs b' = some ⟨data, true⟩ ↔ w.bufs b' = some ⟨data, true⟩ := by
  induction bs generalizing w with
  | nil =>
      cases fetched
      exact Iff.rfl
  | cons b bs ih =>
      rcases Option.bind_eq_some_iff.mp fetched with ⟨w₁, got, rest⟩
      exact (ih rest).trans (bget_dirty got)

theorem bget_cached (got : w.bget b = some w') : (w'.bufs b).isSome = true := by
  unfold World.bget at got
  split_ifs at got with cached
  · cases got
    exact cached
  · cases got
    simp

/-- What has been fetched is in a buffer. -/
theorem fetch_cached (fetched : w.fetch bs = some w') (mem : b ∈ bs) :
    (w'.bufs b).isSome = true := by
  induction bs generalizing w with
  | nil => cases mem
  | cons b' bs ih =>
      rcases Option.bind_eq_some_iff.mp fetched with ⟨w₁, got, rest⟩
      rcases List.mem_cons.mp mem with rfl | later
      · rcases Option.isSome_iff_exists.mp (bget_cached got) with ⟨buf, here⟩
        rw [fetch_kept rest here]
        rfl
      · exact ih rest later

/-- What an action reads does not depend on the buffers. -/
theorem reads_fetch {act : Act} (fetched : w.fetch bs = some w') :
    act.reads c w' = act.reads c w := by
  rcases fetch_eq fetched with ⟨bufs, free, rfl⟩
  cases act <;> rfl

theorem step_of_no_reads {act : Act} (none : act.reads c w = []) :
    step c w act = perform c w act := by
  rw [step, none]
  rfl

/-- Where enough buffers are free, nothing has to be recycled. -/
theorem fetch_of_free (enough : bs.length ≤ w.free) : ∃ w', w.fetch bs = some w' := by
  induction bs generalizing w with
  | nil => exact ⟨w, rfl⟩
  | cons b bs ih =>
      rw [List.length_cons] at enough
      have got : ∃ w₁, w.bget b = some w₁ ∧ w.free ≤ w₁.free + 1 := by
        unfold World.bget
        split_ifs with cached empty
        · exact ⟨w, rfl, Nat.le_succ _⟩
        · omega
        · exact ⟨_, rfl, Nat.le_add_of_sub_le le_rfl⟩
      rcases got with ⟨w₁, got, less⟩
      rcases ih (w := w₁) (by omega) with ⟨w', rest⟩
      exact ⟨w', by rw [World.fetch, got, Option.bind_some, rest]⟩

/-! ## Every buffer is free or holds a block -/

structure Pooled (w : World) (cached : Finset ℕ) : Prop where
  mem : ∀ b, b ∈ cached ↔ (w.bufs b).isSome = true
  card : cached.card + w.free = NBUF

/-- The same blocks are cached. -/
structure SameCached (w w' : World) : Prop where
  isSome : ∀ b, (w'.bufs b).isSome = (w.bufs b).isSome
  free : w'.free = w.free

theorem SameCached.trans {w'' : World} (first : SameCached w w') (second : SameCached w' w'') :
    SameCached w w'' :=
  ⟨fun b => (second.isSome b).trans (first.isSome b), second.free.trans first.free⟩

theorem SameCached.of_bufs (bufs : w'.bufs = w.bufs) (free : w'.free = w.free) : SameCached w w' :=
  ⟨fun b => by rw [bufs], free⟩

/-- A block that is cached gets new contents. -/
theorem SameCached.of_update {buf : Buf} (cached : (w.bufs b).isSome = true)
    (bufs : w'.bufs = Function.update w.bufs b (some buf)) (free : w'.free = w.free) :
    SameCached w w' := by
  refine ⟨fun b' => ?_, free⟩
  rw [bufs]
  by_cases same : b' = b
  · subst same
    rw [Function.update_self, cached]
    rfl
  · rw [Function.update_of_ne same]

namespace Pooled

variable {cached : Finset ℕ}

theorem congr (pooled : Pooled w cached) (same : SameCached w w') : Pooled w' cached where
  mem := by
    intro b
    rw [same.isSome b]
    exact pooled.mem b
  card := by
    rw [same.free]
    exact pooled.card

theorem empty (bufs : w.bufs = fun _ => none) (free : w.free = NBUF) : Pooled w ∅ where
  mem := by simp [bufs]
  card := by simp [free]

/-- `bget` keeps the number of buffers. -/
theorem bget (pooled : Pooled w cached) (got : w.bget b = some w') :
    ∃ cached, Pooled w' cached := by
  unfold World.bget at got
  split_ifs at got with here empty
  · cases got
    exact ⟨cached, pooled⟩
  · cases got
    have new : b ∉ cached := by
      rw [pooled.mem]
      exact here
    refine ⟨insert b cached, fun b' => ?_, ?_⟩
    · by_cases same : b' = b
      · subst same
        simp
      · simp [same, pooled.mem]
    · have card := pooled.card
      rw [Finset.card_insert_of_notMem new]
      change _ + (w.free - 1) = _
      omega

theorem fetch (pooled : Pooled w cached) (fetched : w.fetch bs = some w') :
    ∃ cached, Pooled w' cached := by
  induction bs generalizing w cached with
  | nil =>
      cases fetched
      exact ⟨cached, pooled⟩
  | cons b bs ih =>
      rcases Option.bind_eq_some_iff.mp fetched with ⟨w₁, got, rest⟩
      rcases pooled.bget got with ⟨cached₁, pooled₁⟩
      exact ih pooled₁ rest

/-- A buffer that is given back is free. -/
theorem recycle (pooled : Pooled w cached) (here : (w.bufs b).isSome = true) :
    Pooled { w with bufs := Function.update w.bufs b none, free := w.free + 1 }
      (cached.erase b) where
  mem := by
    intro b'
    by_cases same : b' = b
    · subst same
      simp
    · simp [same, pooled.mem]
  card := by
    have mem := (pooled.mem b).mpr here
    have card := pooled.card
    have some := Finset.card_pos.mpr ⟨b, mem⟩
    rw [Finset.card_erase_of_mem mem]
    change _ + (w.free + 1) = _
    omega

end Pooled

theorem sameCached_bwrite {data : Block} (cached : (w.bufs b).isSome = true) :
    SameCached w (w.bwrite b data) := .of_update cached rfl rfl

theorem sameCached_beginOp {p : ℕ} (stepped : w.beginOp p = some w') : SameCached w w' := by
  unfold World.beginOp at stepped
  split_ifs at stepped
  all_goals
    cases stepped
    exact .of_bufs rfl rfl

theorem sameCached_logWriteTest {p : ℕ} (stepped : w.logWriteTest c p b = some w') :
    SameCached w w' := by
  unfold World.logWriteTest at stepped
  split at stepped
  · split_ifs at stepped
    cases stepped
    exact .of_bufs rfl rfl
  · cases stepped

theorem sameCached_endOp {p : ℕ} (stepped : w.endOp p = some w') : SameCached w w' := by
  unfold World.endOp at stepped
  split at stepped
  · split_ifs at stepped
    all_goals
      cases stepped
      exact .of_bufs rfl rfl
  · cases stepped

/-- The commit works in the buffers that it has got. -/
theorem sameCached_commit {p : ℕ}
    (cached : ∀ b ∈ w.commitReads c (w.pc p), (w.bufs b).isSome = true)
    (stepped : w.commit c p = some w') : SameCached w w' := by
  unfold World.commit at stepped
  split at stepped
  next => split_ifs at stepped <;> (cases stepped; exact .of_bufs rfl rfl)
  next tail at_pc =>
    rw [at_pc, World.commitReads] at cached
    split at stepped
    next b listed =>
      cases stepped
      rw [listed] at cached
      exact (sameCached_bwrite (cached _ List.mem_cons_self)).trans (.of_bufs rfl rfl)
    next =>
      cases stepped
      exact .of_bufs rfl rfl
  next at_pc =>
    rw [at_pc] at cached
    cases stepped
    exact (sameCached_bwrite (cached _ List.mem_cons_self)).trans (.of_bufs rfl rfl)
  next tail at_pc =>
    rw [at_pc, World.commitReads] at cached
    split at stepped
    next b listed =>
      cases stepped
      rw [listed] at cached
      exact (sameCached_bwrite (cached b (by simp))).trans (.of_bufs rfl rfl)
    next =>
      cases stepped
      exact .of_bufs rfl rfl
  next at_pc =>
    rw [at_pc] at cached
    cases stepped
    exact (sameCached_bwrite (cached _ List.mem_cons_self)).trans (.of_bufs rfl rfl)
  next =>
    cases stepped
    exact .of_bufs rfl rfl
  next => cases stepped

theorem sameCached_recoverFromLog
    (cached : ∀ b ∈ w.recoverReads c w.boot, (w.bufs b).isSome = true)
    (stepped : w.recoverFromLog c = some w') : SameCached w w' := by
  unfold World.recoverFromLog at stepped
  split at stepped
  next =>
    cases stepped
    exact .of_bufs rfl rfl
  next tail at_boot =>
    rw [at_boot, World.recoverReads] at cached
    split at stepped
    next b listed =>
      cases stepped
      rw [listed] at cached
      exact (sameCached_bwrite (cached b (by simp))).trans (.of_bufs rfl rfl)
    next =>
      cases stepped
      exact .of_bufs rfl rfl
  next at_boot =>
    rw [at_boot] at cached
    cases stepped
    exact (sameCached_bwrite (cached _ List.mem_cons_self)).trans (.of_bufs rfl rfl)
  next => cases stepped

namespace Pooled

variable {cached : Finset ℕ}

/-- Every action keeps the number of buffers. -/
theorem perform (pooled : Pooled w cached) {act : Act}
    (here : ∀ b ∈ act.reads c w, (w.bufs b).isSome = true)
    (performed : Log.perform c w act = some w') : ∃ cached, Pooled w' cached := by
  cases act with
  | crash =>
      cases performed
      exact ⟨∅, .empty rfl rfl⟩
  | recover => exact ⟨cached, pooled.congr (sameCached_recoverFromLog here performed)⟩
  | beginOp p =>
      simp only [Log.perform, Option.ite_none_right_eq_some] at performed
      exact ⟨cached, pooled.congr (sameCached_beginOp performed.2)⟩
  | kill p =>
      simp only [Log.perform, Option.ite_none_right_eq_some] at performed
      rcases performed with ⟨_, performed⟩
      cases performed
      exact ⟨cached, pooled.congr (.of_bufs rfl rfl)⟩
  | bread b =>
      simp only [Log.perform, Option.ite_none_right_eq_some] at performed
      rcases performed with ⟨_, performed⟩
      cases performed
      exact ⟨cached, pooled⟩
  | recycle b =>
      simp only [Log.perform] at performed
      split at performed
      next buf held =>
        split_ifs at performed
        cases performed
        exact ⟨cached.erase b, pooled.recycle (by rw [held]; rfl)⟩
      next => cases performed
  | logWriteTest p b =>
      simp only [Log.perform, Option.ite_none_right_eq_some] at performed
      exact ⟨cached, pooled.congr (sameCached_logWriteTest performed.2)⟩
  | logWrite p data =>
      simp only [Log.perform, World.logWrite, Option.ite_none_right_eq_some] at performed
      rcases performed with ⟨_, performed⟩
      split at performed
      next op b at_pc =>
        cases performed
        refine ⟨cached, pooled.congr (.of_update (here b ?_) rfl rfl)⟩
        simp [Act.reads, at_pc]
      next => cases performed
  | bwrite p b data =>
      simp only [Log.perform] at performed
      split at performed
      · simp only [Option.ite_none_right_eq_some] at performed
        rcases performed with ⟨_, performed⟩
        cases performed
        exact ⟨cached, pooled.congr (sameCached_bwrite (here b List.mem_cons_self))⟩
      · cases performed
  | endOp p =>
      simp only [Log.perform, Option.ite_none_right_eq_some] at performed
      exact ⟨cached, pooled.congr (sameCached_endOp performed.2)⟩
  | commit p =>
      simp only [Log.perform, Option.ite_none_right_eq_some] at performed
      exact ⟨cached, pooled.congr (sameCached_commit here performed.2)⟩

theorem step (pooled : Pooled w cached) {act : Act} (stepped : Log.step c w act = some w') :
    ∃ cached, Pooled w' cached := by
  rcases Option.bind_eq_some_iff.mp stepped with ⟨w₁, fetched, performed⟩
  rcases pooled.fetch fetched with ⟨cached₁, pooled₁⟩
  refine pooled₁.perform (fun b mem => fetch_cached fetched ?_) performed
  rwa [reads_fetch fetched] at mem

end Pooled

end Xv6.Log
