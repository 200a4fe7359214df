import Xv6.Dev.Ide

/-!
# The queue of the disk driver

`idequeue` is a list of the buffers that wait for a transfer, each once, and the drive works
on the first of them. Whoever sleeps in `iderw` sleeps on a buffer in the queue, so that no
wakeup is lost, and whoever is in `iderw` holds the buffer's sleep-lock, so that nothing
happens to a buffer on its way through the queue.
-/

namespace Xv6.Dev

open Relation

variable {w w' : World} {p q : ℕ} {b : Fin NBUF}

/-! ## Commands -/

/-- Where on the two disks the block of a buffer is. -/
def Buf.place (b : Buf) : Bool × ℕ := (b.dev.toNat % 2 = 1, b.blockno.toNat)

theorem exists_idestart {b : Buf} (small : b.blockno.toNat < FSSIZE) : ∃ c, idestart b = .ok c := by
  rw [idestart, if_neg (Nat.not_le.mpr small), if_neg (by decide)]
  exact ⟨_, rfl⟩

theorem drive_select (n : ℕ) :
    (0xe0 ||| BitVec.ofNat 8 (n % 2 * 2 ^ 4) ||| BitVec.ofNat 8 0 : Byte).getLsbD 4 =
      decide (n % 2 = 1) ∧
    (0xe0 ||| BitVec.ofNat 8 (n % 2 * 2 ^ 4) ||| BitVec.ofNat 8 0 : Byte).toNat % 16 = 0 := by
  rcases Nat.mod_two_eq_zero_or_one n with even | odd
  · rw [even]
    decide
  · rw [odd]
    decide

/-- The controller understands what `idestart` has put into its ports. -/
theorem idestart_place {b : Buf} {c : Command} (started : idestart b = .ok c) :
    (c.disk, c.sector) = b.place ∧ c.out = (if b.dirty then some b.data else none) ∧
      c.command = if b.dirty then IDE_CMD_WRITE else IDE_CMD_READ := by
  rw [idestart] at started
  split at started
  case isTrue => cases started
  case isFalse large =>
  rw [if_neg (by decide)] at started
  cases started
  have small : b.blockno.toNat < 1000 := Nat.not_le.mp large
  have one : sectorPerBlock = 1 := by decide
  have top : b.blockno.toNat * sectorPerBlock / 2 ^ 24 % 16 = 0 := by
    rw [one]
    omega
  rcases drive_select b.dev.toNat with ⟨select, head⟩
  refine ⟨Prod.ext ?_ ?_, rfl, rfl⟩
  · simp only [Command.disk, top]
    exact select
  · simp only [Command.sector, top, head]
    simp only [BitVec.toNat_ofNat, one, Buf.place]
    omega

/-! ## The invariant -/

namespace World

/-- The buffers from `idequeue` on. -/
def queue (w : World) : List (Fin NBUF) := Chain.nodes w.qnext NBUF w.idequeue

/-- Process `p` is in `iderw` for buffer `b`. -/
def Waits (w : World) (p : ℕ) (b : Fin NBUF) : Prop := w.pc p = .asleep b ∨ w.pc p = .woken b

/-- The drive has done what buffer `b` asks for, but for what is left to `ideintr`. -/
def Carried (w : World) (b : Fin NBUF) (sector : Block) : Prop :=
  if (w.buf b).dirty then w.disk (w.buf b).place.1 (w.buf b).place.2 = (w.buf b).data
  else sector = w.disk (w.buf b).place.1 (w.buf b).place.2

/-- The drive works on buffer `b`. -/
inductive WorksOn (w : World) (b : Fin NBUF) : Prop where
  | busy (c : Command) (started : idestart (w.buf b) = .ok c) (drive : w.drive = .busy c)
  | done (ok : Bool) (sector : Block) (drive : w.drive = .done ok sector)
      (carried : ok = true → w.Carried b sector)

structure Inv (w : World) : Prop where
  chain : Chain w.qnext w.idequeue w.queue
  nodup : w.queue.Nodup
  idle : w.queue = [] → w.drive = .ready
  working : ∀ b l, w.queue = b :: l → w.WorksOn b
  queued : ∀ b ∈ w.queue, ¬(w.buf b).Clean ∧ (w.buf b).blockno.toNat < FSSIZE ∧ ∃ p, w.Waits p b
  waiting : ∀ p b, w.Waits p b → (w.buf b).lock = some p ∧ (b ∈ w.queue ∨ (w.buf b).Clean)
  asleep : ∀ p b, w.pc p = .asleep b → b ∈ w.queue

theorem queue_length_le (nodup : w.queue.Nodup) : w.queue.length ≤ NBUF := by
  have few := nodup.length_le_card
  rwa [Fintype.card_fin] at few

theorem not_waits_of_out (out : w.pc p = .out) : ¬w.Waits p b := by
  rintro (asleep | woken)
  · rw [out] at asleep
    cases asleep
  · rw [out] at woken
    cases woken

/-- The lock of a buffer keeps everybody else out of `iderw`. -/
theorem Inv.nobody (inv : w.Inv) (free : ∀ q, (w.buf b).lock = some q → w.pc q = .out) (q : ℕ) :
    ¬w.Waits q b :=
  fun waits => not_waits_of_out (free q (inv.waiting q b waits).1) waits

theorem Inv.not_queued (inv : w.Inv) (nobody : ∀ q, ¬w.Waits q b) : b ∉ w.queue := by
  intro mem
  rcases (inv.queued b mem).2.2 with ⟨q, waits⟩
  exact nobody q waits

theorem WorksOn.congr (works : w.WorksOn b) (buf : w'.buf b = w.buf b) (drive : w'.drive = w.drive)
    (disk : w'.disk = w.disk) : w'.WorksOn b := by
  cases works with
  | busy c started busy => exact .busy c (by rwa [buf]) (drive.trans busy)
  | done ok sector done carried =>
      refine .done ok sector (drive.trans done) fun good => ?_
      have before := carried good
      rwa [Carried, buf, disk]

/-- What `bio.c` and its callers do to a buffer that nobody has in `iderw`. -/
theorem Inv.setBuf (inv : w.Inv) (nobody : ∀ q, ¬w.Waits q b) (buf : Buf) :
    (w.setBuf b buf).Inv := by
  have outside := inv.not_queued nobody
  have kept : ∀ c ∈ w.queue, (w.setBuf b buf).buf c = w.buf c :=
    fun c mem => Function.update_of_ne (ne_of_mem_of_not_mem mem outside) _ _
  refine ⟨inv.chain, inv.nodup, inv.idle, fun c l first => ?_, fun c mem => ?_, fun q c waits =>
    ?_, inv.asleep⟩
  · exact (inv.working c l first).congr (kept c (first ▸ List.mem_cons_self)) rfl rfl
  · rw [kept c mem]
    exact inv.queued c mem
  · have other : c ≠ b := by
      rintro rfl
      exact nobody q waits
    have same : (w.setBuf b buf).buf c = w.buf c := Function.update_of_ne other _ _
    rw [same]
    exact inv.waiting q c waits

/-! ## Calls and returns -/

/-- The callers of `iderw` have locked the buffer, it is for a block that exists, and there is
something to do. -/
structure Ready (w : World) (p : ℕ) (b : Fin NBUF) : Prop where
  lock : (w.buf b).lock = some p
  work : ¬(w.buf b).Clean
  present : ¬((w.buf b).dev ≠ 0 ∧ w.havedisk1 = false)
  small : (w.buf b).blockno.toNat < FSSIZE

theorem Inv.fresh (inv : w.Inv) (out : w.pc p = .out) (ready : w.Ready p b) : b ∉ w.queue := by
  refine inv.not_queued (inv.nobody fun q held => ?_)
  rw [ready.lock] at held
  cases held
  exact out

/-- A buffer is added to the end of the queue. -/
theorem Inv.enqueue (inv : w.Inv) (out : w.pc p = .out) (ready : w.Ready p b)
    (chain : Chain w'.qnext w'.idequeue (w.queue ++ [b])) (buf : w'.buf = w.buf)
    (pc : w'.pc = Function.update w.pc p (.asleep b))
    (works : ∀ c l, w.queue ++ [b] = c :: l → w'.WorksOn c) :
    w'.Inv ∧ w'.queue = w.queue ++ [b] := by
  have nodup : (w.queue ++ [b]).Nodup := by
    rw [← List.concat_eq_append]
    exact inv.nodup.concat (inv.fresh out ready)
  have few : (w.queue ++ [b]).length ≤ NBUF := by
    have few := nodup.length_le_card
    rwa [Fintype.card_fin] at few
  have listed : w'.queue = w.queue ++ [b] := chain.nodes_eq few
  have self : w'.pc p = .asleep b := by rw [pc, Function.update_self]
  have others : ∀ q, q ≠ p → w'.pc q = w.pc q :=
    fun q other => by rw [pc, Function.update_of_ne other]
  have waits : ∀ q c, q ≠ p → (w'.Waits q c ↔ w.Waits q c) := by
    intro q c other
    rw [Waits, Waits, others q other]
  refine ⟨⟨listed ▸ chain, listed ▸ nodup, ?_, listed ▸ works, ?_, ?_, ?_⟩, listed⟩
  · intro empty
    rw [listed] at empty
    exact absurd empty (List.append_ne_nil_of_right_ne_nil _ (List.cons_ne_nil b []))
  · intro c mem
    rw [listed] at mem
    rw [buf]
    rcases List.mem_append.mp mem with old | new
    · rcases inv.queued c old with ⟨work, small, q, waiting⟩
      have other : q ≠ p := by
        rintro rfl
        exact not_waits_of_out out waiting
      exact ⟨work, small, q, (waits q c other).mpr waiting⟩
    · rw [List.mem_singleton.mp new]
      exact ⟨ready.work, ready.small, p, .inl self⟩
  · intro q c waiting
    rw [listed, buf]
    by_cases same : q = p
    · subst same
      have here : b = c := by simpa [Waits, self] using waiting
      subst here
      exact ⟨ready.lock, .inl (List.mem_append_right _ (List.mem_singleton_self b))⟩
    · rcases inv.waiting q c ((waits q c same).mp waiting) with ⟨lock, old | clean⟩
      · exact ⟨lock, .inl (List.mem_append_left _ old)⟩
      · exact ⟨lock, .inr clean⟩
  · intro q c asleep
    rw [listed]
    by_cases same : q = p
    · subst same
      rw [self] at asleep
      cases asleep
      exact List.mem_append_right _ (List.mem_singleton_self b)
    · rw [others q same] at asleep
      exact List.mem_append_left _ (inv.asleep q c asleep)

/-- A request is put into the queue, in the last place. -/
theorem Inv.iderw (inv : w.Inv) (out : w.pc p = .out) (ready : w.Ready p b) :
    ∃ w', w.iderw p b = .ok w' ∧ w'.Inv ∧ w'.queue = w.queue ++ [b] ∧ w'.buf = w.buf ∧
      w'.disk = w.disk ∧
      w'.pc = Function.update w.pc p (.asleep b) ∧ w'.havedisk1 = w.havedisk1 ∧
      (w'.drive = w.drive ∧ w'.idequeue = w.idequeue ∨ w.idequeue = none ∧
        ∃ c, w'.drive = .busy c) := by
  have outside := inv.fresh out ready
  rcases inv.chain.append_eq inv.nodup outside (queue_length_le inv.nodup)
    with ⟨head, next, appended, chain, _⟩
  have waits : ∀ w₁ : World, w₁.buf = w.buf → w₁.wait p b = w₁.goto p (.asleep b) := by
    intro w₁ same
    rw [wait, same, if_neg ready.work]
  have entered : w.iderw p b = (do
      let w₁ ← if head = some b then ({ w with idequeue := head, qnext := next } : World).start b
        else pure { w with idequeue := head, qnext := next }
      return w₁.wait p b) := by
    rw [World.iderw, if_neg (not_not.mpr ready.lock), if_neg ready.work, if_neg ready.present,
      appended]
  have called : ∃ w', w.iderw p b = .ok w' ∧ Chain w'.qnext w'.idequeue (w.queue ++ [b]) ∧
    w'.buf = w.buf ∧
      w'.disk = w.disk ∧ w'.pc = Function.update w.pc p (.asleep b) ∧ w'.havedisk1 = w.havedisk1 ∧
      (w'.drive = w.drive ∧ w'.idequeue = w.idequeue ∨ w.idequeue = none ∧
        ∃ c, w'.drive = .busy c) ∧
      ∀ c l, w.queue ++ [b] = c :: l → w'.WorksOn c := by
    cases listing : w.queue with
    | nil =>
        rw [listing] at chain
        rcases exists_idestart ready.small with ⟨c, started⟩
        have first : head = some b := chain.1
        refine ⟨({ w with idequeue := head, qnext := next, drive := .busy c } : World).goto p
          (.asleep b), ?_, chain, rfl,
          rfl, rfl, rfl, .inr ⟨inv.chain.head_eq.trans (by rw [listing]; rfl), c, rfl⟩, ?_⟩
        · rw [entered, if_pos first, start, started, inv.idle listing]
          exact congrArg Except.ok (waits _ rfl)
        · rintro d l ⟨⟩
          exact .busy c started rfl
    | cons c l =>
        rw [listing] at chain outside
        have other : head ≠ some b := by
          rintro rfl
          have here : b = c := Option.some.inj chain.1
          exact outside (here ▸ List.mem_cons_self)
        refine ⟨({ w with idequeue := head, qnext := next } : World).goto p (.asleep b), ?_, chain,
          rfl, rfl, rfl, rfl,
          .inl ⟨rfl, chain.1.trans (inv.chain.head_eq.trans (by rw [listing]; rfl)).symm⟩, ?_⟩
        · rw [entered, if_neg other, pure_bind]
          exact congrArg Except.ok (waits _ rfl)
        · rintro d l' ⟨⟩
          exact (inv.working c l listing).congr rfl rfl rfl
  rcases called with ⟨w', called, chain', buf, disk, pc, havedisk1, drive, works⟩
  rcases inv.enqueue out ready chain' buf pc works with ⟨inv', listed⟩
  exact ⟨w', called, inv', listed, buf, disk, pc, havedisk1, drive⟩

/-! ## The drive and its interrupt -/

/-- What `ideintr` makes of the first buffer. -/
def completed (ok : Bool) (sector : Block) (b : Buf) : Buf :=
  { b with data := if b.dirty = false ∧ ok then sector else b.data, valid := true, dirty := false }

/-- An interrupt takes the first buffer from the queue, and the drive goes on with the next one. -/
theorem Inv.ideintr (inv : w.Inv) {ok : Bool} {sector : Block} (done : w.drive = .done ok sector) :
    ∃ b l w', w.queue = b :: l ∧ w.ideintr ok sector = .ok w' ∧ w'.Inv ∧ w'.queue = l ∧
      w'.buf = Function.update w.buf b (completed ok sector (w.buf b)) ∧ w'.disk = w.disk ∧
      w'.pc = (w.wakeup b).pc ∧ w'.havedisk1 = w.havedisk1 ∧
        ∀ ok' sector', w'.drive ≠ .done ok' sector' := by
  cases listing : w.queue with
  | nil =>
      rw [inv.idle listing] at done
      cases done
  | cons b l =>
      have chain := inv.chain
      have nodup := inv.nodup
      rw [listing] at chain nodup
      rcases chain with ⟨first, rest⟩
      rcases List.nodup_cons.mp nodup with ⟨outside, nodup'⟩
      have few : l.length ≤ NBUF := by
        have few := queue_length_le inv.nodup
        rw [listing] at few
        exact Nat.le_of_succ_le few
      let w₁ : World := { w with
        drive := .ready
        idequeue := w.qnext b
        buf := Function.update w.buf b (completed ok sector (w.buf b))
        pc := (w.wakeup b).pc }
      have kept : ∀ c, c ≠ b → w₁.buf c = w.buf c := fun c other => Function.update_of_ne other _ _
      have self : w₁.buf b = completed ok sector (w.buf b) := Function.update_self _ _ _
      have listed : w₁.queue = l := rest.nodes_eq few
      -- Who sleeps now did so before, on another buffer.
      have sleeps : ∀ q c, w₁.pc q = .asleep c → w.pc q = .asleep c ∧ c ≠ b := by
        intro q c asleep
        change (if w.pc q = .asleep b then Pc.woken b else w.pc q) = _ at asleep
        split at asleep
        case isTrue => cases asleep
        case isFalse awake =>
          refine ⟨asleep, ?_⟩
          rintro rfl
          exact awake asleep
      have waits : ∀ q c, w₁.Waits q c ↔ w.Waits q c := by
        intro q c
        change (if w.pc q = .asleep b then Pc.woken b else w.pc q) = _ ∨
          (if w.pc q = .asleep b then Pc.woken b else w.pc q) = _ ↔ _
        split
        case isTrue asleep => simp [Waits, asleep]
        case isFalse => exact Iff.rfl
      -- All but the drive is as the invariant has it.
      have built : ∀ drive, (l = [] → drive = .ready) →
          (∀ c l', l = c :: l' → ({ w₁ with drive := drive } : World).WorksOn c) →
          ({ w₁ with drive := drive } : World).Inv := by
        intro drive idle works
        have queue : ({ w₁ with drive := drive } : World).queue = l := listed
        refine ⟨queue ▸ rest, queue ▸ nodup', queue ▸ idle, queue ▸ works, ?_, ?_, ?_⟩
        · intro c mem
          rw [queue] at mem
          have other : c ≠ b := ne_of_mem_of_not_mem mem outside
          rcases inv.queued c (listing ▸ List.mem_cons_of_mem b mem) with ⟨work, small, q, waiting⟩
          change ¬(w₁.buf c).Clean ∧ (w₁.buf c).blockno.toNat < FSSIZE ∧ ∃ q, w₁.Waits q c
          rw [kept c other]
          exact ⟨work, small, q, (waits q c).mpr waiting⟩
        · intro q c waiting
          rcases inv.waiting q c ((waits q c).mp waiting) with ⟨lock, either⟩
          change (w₁.buf c).lock = some q ∧
            (c ∈ ({ w₁ with drive := drive } : World).queue ∨ (w₁.buf c).Clean)
          rw [queue]
          by_cases same : c = b
          · subst same
            rw [self]
            exact ⟨lock, .inr ⟨rfl, rfl⟩⟩
          · rw [kept c same]
            rw [listing] at either
            exact ⟨lock, either.imp_left fun mem => (List.mem_cons.mp mem).resolve_left same⟩
        · intro q c asleep
          rw [queue]
          rcases sleeps q c asleep with ⟨before, other⟩
          exact (List.mem_cons.mp (listing ▸ inv.asleep q c before)).resolve_left other
      have served : w.ideintr ok sector = (w.qnext b).elim (.ok w₁) w₁.start := by
        rw [World.ideintr, first]
        dsimp only
        split
        case h_1 last => exact (congrArg (fun next => next.elim (.ok w₁) w₁.start) last).symm
        case h_2 c more => exact (congrArg (fun next => next.elim (.ok w₁) w₁.start) more).symm
      cases l with
      | nil =>
          have ready : ∀ ok' sector', w₁.drive ≠ .done ok' sector' := by
            rintro ok' sector' ⟨⟩
          refine ⟨b, [], w₁, rfl, ?_, built .ready (fun _ => rfl) ?_, listed, rfl, rfl, rfl,
            rfl, ready⟩
          case refine_2 => rintro c l' ⟨⟩
          rw [served, rest, Option.elim_none]
      | cons c l =>
          have small := (inv.queued c (listing ▸ List.mem_cons_of_mem b List.mem_cons_self)).2.1
          have other : c ≠ b := ne_of_mem_of_not_mem List.mem_cons_self outside
          rcases exists_idestart small with ⟨command, started⟩
          have started' : idestart (w₁.buf c) = .ok command := by rwa [kept c other]
          have busy : ∀ ok' sector', ({ w₁ with drive := .busy command } : World).drive ≠
              .done ok' sector' := by
            rintro ok' sector' ⟨⟩
          refine ⟨b, c :: l, { w₁ with drive := .busy command }, rfl, ?_,
            built _ (fun empty => ?_) ?_, listed, rfl,
            rfl, rfl, rfl, busy⟩
          case refine_2 => cases empty
          · rw [served, rest.1, Option.elim_some]
            simp only [start, started']
            rfl
          · rintro d l' ⟨⟩
            exact .busy command started' rfl

/-- A command that has ended without an error has been carried out on its buffer. -/
theorem carried_finish {c : Command} (started : idestart (w.buf b) = .ok c) :
    (w.finish c true).Carried b (w.disk c.disk c.sector) := by
  rcases idestart_place started with ⟨place, out, command⟩
  have disk : c.disk = (w.buf b).place.1 := congrArg Prod.fst place
  have sector : c.sector = (w.buf b).place.2 := congrArg Prod.snd place
  rw [Carried]
  change if (w.buf b).dirty then (w.finish c true).disk _ _ = (w.buf b).data
    else w.disk c.disk c.sector = (w.finish c true).disk _ _
  split
  case isTrue dirty =>
    rw [dirty, if_pos rfl] at out command
    simp only [World.finish, out, command, and_self, if_true, disk, sector, Function.update_self]
  case isFalse clean =>
    rw [if_neg clean] at out
    simp only [World.finish, out, disk, sector]

/-- The drive finishes what it has been told to do. -/
theorem Inv.finish (inv : w.Inv) {c : Command} (busy : w.drive = .busy c) (ok : Bool) :
    (w.finish c ok).Inv := by
  refine ⟨inv.chain, inv.nodup, fun empty => ?_, fun b l listing => ?_, inv.queued, inv.waiting,
    inv.asleep⟩
  · have ready := inv.idle empty
    rw [busy] at ready
    cases ready
  · refine .done ok (w.disk c.disk c.sector) rfl ?_
    rintro rfl
    cases inv.working b l listing with
    | busy c' started drive =>
        rw [busy] at drive
        cases drive
        exact carried_finish started
    | done ok' sector' drive =>
        rw [busy] at drive
        cases drive

/-! ## Sleeping -/

/-- Only process `p` has moved, between places in `iderw` for a buffer, or out of it. -/
theorem Inv.goto (inv : w.Inv) {pc : Pc} (waits : w.Waits p b)
    (next : pc = .woken b ∨ (pc = .asleep b ∧ b ∈ w.queue) ∨ (pc = .out ∧ (w.buf b).Clean)) :
    (w.goto p pc).Inv := by
  have others : ∀ q, q ≠ p → (w.goto p pc).pc q = w.pc q :=
    fun q other => Function.update_of_ne other _ _
  have self : (w.goto p pc).pc p = pc := Function.update_self _ _ _
  -- Nobody but `p` waits for the buffer.
  have alone : ∀ q, w.Waits q b → q = p := by
    intro q waits'
    have lock := (inv.waiting q b waits').1
    rw [(inv.waiting p b waits).1] at lock
    exact (Option.some.inj lock).symm
  have stays : ∀ q c, (w.goto p pc).Waits q c → w.Waits q c := by
    intro q c waits'
    by_cases same : q = p
    · subst same
      rw [Waits, self] at waits'
      have here : c = b := by
        rcases next with rfl | ⟨rfl, _⟩ | ⟨rfl, _⟩ <;> simp at waits' <;> exact waits'.symm
      exact here ▸ waits
    · rwa [Waits, others q same] at waits'
  refine ⟨inv.chain, inv.nodup, inv.idle, ?_, fun c mem => ?_, fun q c waits' =>
    ?_, fun q c asleep => ?_⟩
  · exact fun c l listing => (inv.working c l listing).congr rfl rfl rfl
  · rcases inv.queued c mem with ⟨work, small, q, waits'⟩
    refine ⟨work, small, q, ?_⟩
    by_cases same : q = p
    · subst same
      have here : c = b := by
        rcases waits with at_b | at_b <;> rcases waits' with at_c | at_c <;> rw [at_b] at at_c <;>
          cases at_c <;> rfl
      subst here
      rw [Waits, self]
      rcases next with rfl | ⟨rfl, _⟩ | ⟨rfl, clean⟩
      · exact .inr rfl
      · exact .inl rfl
      · exact absurd clean work
    · rwa [Waits, others q same]
  · exact inv.waiting q c (stays q c waits')
  · by_cases same : q = p
    · subst same
      rw [self] at asleep
      rcases next with rfl | ⟨rfl, mem⟩ | ⟨rfl, _⟩ <;> cases asleep
      exact mem
    · rw [others q same] at asleep
      exact inv.asleep q c asleep

/-- Back from `sleep`, a process finds its transfer done, or its buffer still in the queue. -/
theorem Inv.wait (inv : w.Inv) (woken : w.pc p = .woken b) : (w.wait p b).Inv := by
  rw [World.wait]
  split
  case isTrue clean => exact inv.goto (.inr woken) (.inr (.inr ⟨rfl, clean⟩))
  case isFalse work =>
    exact inv.goto (.inr woken)
      (.inr (.inl ⟨rfl, (inv.waiting p b (.inr woken)).2.resolve_right work⟩))

end World

/-! ## Runs -/

/-- `iderw` is called as its callers have to. -/
def Careful (w : World) : Event → Prop
  | .iderw p b => w.Ready p b
  | _ => True

def Event.interrupts : Event → ℕ
  | .ideintr => 1
  | _ => 0

/-- An interrupt takes one buffer from the queue, nothing else does; who waits for a buffer in
it stays. -/
structure Turned (w : World) (e : Event) (w' : World) : Prop where
  inv : w'.Inv
  queue : ∃ more, w'.queue = w.queue.drop e.interrupts ++ more ∧ ∀ c ∈ more, c ∉ w.queue
  waits : ∀ q c, c ∈ w.queue → w.Waits q c → w'.Waits q c

theorem exists_more {e : Event} (quiet : e.interrupts = 0) (same : w'.queue = w.queue) :
    ∃ more, w'.queue = w.queue.drop e.interrupts ++ more ∧ ∀ c ∈ more, c ∉ w.queue := by
  refine ⟨[], ?_, List.forall_mem_nil _⟩
  rw [quiet, List.drop_zero, List.append_nil]
  exact same

/-- No event stops the driver: no panic, no endless loop, and no waiting for the drive with the lock
held. -/
theorem World.Inv.step (inv : w.Inv) {e : Event} (careful : Careful w e) {r : Except Stop World}
    (stepped : Dev.step w e = some r) : ∃ w', r = .ok w' ∧ Turned w e w' := by
  have touched : ∀ {b : Fin NBUF} {buf : Buf}, (∀ q, (w.buf b).lock = some q → w.pc q = .out) →
    e.interrupts = 0 →
      Turned w e (w.setBuf b buf) := by
    intro b buf free quiet
    exact ⟨inv.setBuf (inv.nobody free) buf, exists_more quiet rfl, fun _ _ _ => id⟩
  have mine : ∀ {p : ℕ} {b : Fin NBUF}, w.pc p = .out ∧ (w.buf b).lock = some p →
      ∀ q, (w.buf b).lock = some q → w.pc q = .out := by
    rintro p b ⟨out, lock⟩ q held
    rw [lock] at held
    cases held
    exact out
  have moved : ∀ {p : ℕ} {b : Fin NBUF} {pc : Pc}, e.interrupts = 0 → (w.goto p pc).Inv →
      (b ∈ w.queue → pc = .asleep b ∨ pc = .woken b) → w.Waits p b → Turned w e (w.goto p pc) := by
    intro p b pc quiet inv' stays waits
    refine ⟨inv', exists_more quiet rfl, fun q c mem waits' => ?_⟩
    by_cases same : q = p
    · subst same
      have here : c = b := by
        rcases waits with at_b | at_b <;> rcases waits' with at_c | at_c <;> rw [at_b] at at_c <;>
          cases at_c <;> rfl
      subst here
      simpa [World.Waits, World.goto] using stays mem
    · simpa [World.Waits, World.goto, same] using waits'
  cases e with
  | acquiresleep p b =>
      simp only [Dev.step, Option.ite_none_right_eq_some] at stepped
      rcases stepped with ⟨⟨_, free⟩, ⟨⟩⟩
      refine ⟨_, rfl, touched (fun q held => ?_) rfl⟩
      rw [free] at held
      cases held
  | releasesleep p b =>
      simp only [Dev.step, Option.ite_none_right_eq_some] at stepped
      rcases stepped with ⟨held, ⟨⟩⟩
      exact ⟨_, rfl, touched (mine held) rfl⟩
  | recycle b dev blockno =>
      simp only [Dev.step, Option.ite_none_right_eq_some] at stepped
      rcases stepped with ⟨free, ⟨⟩⟩
      refine ⟨_, rfl, touched (fun q held => ?_) rfl⟩
      rw [free] at held
      cases held
  | store p b data =>
      simp only [Dev.step, Option.ite_none_right_eq_some] at stepped
      rcases stepped with ⟨held, ⟨⟩⟩
      exact ⟨_, rfl, touched (mine held) rfl⟩
  | setDirty p b =>
      simp only [Dev.step, Option.ite_none_right_eq_some] at stepped
      rcases stepped with ⟨held, ⟨⟩⟩
      exact ⟨_, rfl, touched (mine held) rfl⟩
  | iderw p b =>
      simp only [Dev.step, Option.ite_none_right_eq_some] at stepped
      rcases stepped with ⟨out, ⟨⟩⟩
      rcases inv.iderw out careful with ⟨w', called, inv', queue, _, _, pc, _⟩
      refine ⟨w', called, inv', ⟨[b], queue, ?_⟩, fun q c _ waits => ?_⟩
      · intro c mem
        rw [List.mem_singleton.mp mem]
        exact inv.fresh out careful
      · have other : q ≠ p := by
          rintro rfl
          exact World.not_waits_of_out out waits
        rwa [World.Waits, pc, Function.update_of_ne other]
  | resume p =>
      simp only [Dev.step] at stepped
      split at stepped
      next b woken =>
        cases stepped
        refine ⟨_, rfl, ?_⟩
        have inv' := inv.wait woken
        by_cases test : (w.buf b).Clean
        · rw [World.wait, if_pos test] at inv' ⊢
          exact moved rfl inv' (fun mem => absurd test (inv.queued b mem).1) (.inr woken)
        · rw [World.wait, if_neg test] at inv' ⊢
          exact moved rfl inv' (fun _ => .inl rfl) (.inr woken)
      next => cases stepped
  | kill p =>
      simp only [Dev.step] at stepped
      split at stepped <;> cases stepped
      next b asleep =>
        exact ⟨_, rfl, moved rfl (inv.goto (.inl asleep) (.inl rfl)) (fun _ => .inr rfl)
          (.inl asleep)⟩
      next => exact ⟨w, rfl, inv, exists_more rfl rfl, fun _ _ _ => id⟩
  | finish ok =>
      simp only [Dev.step] at stepped
      split at stepped
      next c busy =>
        cases stepped
        exact ⟨_, rfl, inv.finish busy ok, exists_more rfl rfl, fun _ _ _ => id⟩
      next => cases stepped
  | ideintr =>
      simp only [Dev.step] at stepped
      split at stepped
      next ok sector done =>
        cases stepped
        rcases inv.ideintr done with ⟨b, l, w', listing, served, inv', queue, _, _, pc, _⟩
        refine ⟨w', served, inv', ⟨[], ?_, List.forall_mem_nil _⟩, fun q c _ waits => ?_⟩
        · rw [listing, queue, List.append_nil]
          rfl
        · rw [World.Waits, pc]
          simp only [World.wakeup]
          split
          next asleep =>
            rcases waits with at_c | at_c <;> rw [asleep] at at_c <;> cases at_c
            exact .inr rfl
          next => exact waits
      next => cases stepped

/-- The queue is empty at first. -/
theorem World.inv_init (buf : Fin NBUF → Buf) (havedisk1 : Bool) (disk : Bool → ℕ → Block) :
    (World.init buf havedisk1 disk).Inv := by
  have empty : (World.init buf havedisk1 disk).queue = [] := rfl
  refine ⟨rfl, List.nodup_nil, fun _ => rfl, ?_, ?_, ?_, ?_⟩
  · intro b l listing
    rw [empty] at listing
    cases listing
  · intro b mem
    exact absurd mem List.not_mem_nil
  · exact fun p b waits => absurd waits (World.not_waits_of_out rfl)
  · rintro p b ⟨⟩

/-- One step after another, each of which goes on; calls are careful. -/
inductive Run : World → List Event → World → Prop where
  | refl (w : World) : Run w [] w
  | head {w w₁ w' : World} {e : Event} {es : List Event} (careful : Careful w e)
      (stepped : Dev.step w e = some (.ok w₁)) (rest : Run w₁ es w') : Run w (e :: es) w'

theorem World.Inv.run (inv : w.Inv) {es : List Event} (run : Run w es w') : w'.Inv := by
  induction run with
  | refl => exact inv
  | head careful stepped _ ih =>
      rcases inv.step careful stepped with ⟨w₁, ⟨⟩, turned⟩
      exact ih turned.inv

theorem Run.append {w₁ : World} {es es' : List Event} (first : Run w es w₁)
    (second : Run w₁ es' w') :
    Run w (es ++ es') w' := by
  induction first with
  | refl => exact second
  | head careful stepped _ ih => exact .head careful stepped (ih second)

/-- However the processes, the drive and its interrupts take turns: the queue has each buffer
once, the drive is idle only if it is empty, whoever sleeps has a locked buffer in it, and no
event that is possible stops the kernel. -/
theorem driver_goes_on {buf : Fin NBUF → Buf} {havedisk1 : Bool} {disk : Bool → ℕ → Block}
    {es : List Event} (run : Run (World.init buf havedisk1 disk) es w) :
    Chain w.qnext w.idequeue w.queue ∧ w.queue.Nodup ∧ (w.drive = .ready ↔ w.queue = []) ∧
      (∀ p b, w.pc p = .asleep b → b ∈ w.queue ∧ (w.buf b).lock = some p) ∧
      ∀ e r, Careful w e → step w e = some r → ∃ w', r = .ok w' := by
  have inv := (World.inv_init buf havedisk1 disk).run run
  refine ⟨inv.chain, inv.nodup, ⟨fun ready => ?_, inv.idle⟩,
    fun p b asleep => ?_, fun e r careful stepped => ?_⟩
  · cases listing : w.queue with
    | nil => rfl
    | cons b l =>
        rcases inv.working b l listing with ⟨c, _, busy⟩ | ⟨ok, sector, done, _⟩
        · rw [ready] at busy
          cases busy
        · rw [ready] at done
          cases done
  · exact ⟨inv.asleep p b asleep, (inv.waiting p b (.inl asleep)).1⟩
  · rcases inv.step careful stepped with ⟨w', same, _⟩
    exact ⟨w', same⟩

/-- All buffers are for block 5 of disk 0. -/
def started : World := World.init (fun _ => ⟨false, false, 0, 5, none, fun _ => 0⟩) false
      fun _ _ _ => 1

/-- Two processes want to read: one buffer is transferred, and the other one waits. -/
def twoReads : List Event := [.acquiresleep 3 0, .acquiresleep 4 1, .iderw 3 0, .iderw 4 1]

def twoTransfers : List Event := [.finish true, .ideintr, .finish true, .ideintr]

theorem run_twoReads :
    ∃ w w', Run started twoReads w ∧ w.pc 4 = .asleep 1 ∧ w.queue = [0, 1] ∧
      Run w twoTransfers w' := by
  refine ⟨_, _, .head trivial rfl (.head trivial rfl (.head ?_ rfl (.head ?_ rfl (.refl _)))),
    rfl, rfl,
    .head trivial rfl (.head trivial rfl (.head trivial rfl (.head trivial rfl (.refl _))))⟩
  · exact ⟨rfl, by decide, by decide, by decide⟩
  · exact ⟨rfl, by decide, by decide, by decide⟩

/-- The second of two reads sleeps, and its buffer stays in the queue. -/
theorem driver_goes_on_twoReads : ∃ w, Run started twoReads w ∧ w.pc 4 = .asleep 1 ∧ w.queue.Nodup ∧
    (w.buf 1).lock = some 4 := by
  rcases run_twoReads with ⟨w, _, run, asleep, _⟩
  rcases driver_goes_on run with ⟨_, nodup, _, sleepers, _⟩
  exact ⟨w, run, asleep, nodup, (sleepers 4 1 asleep).2⟩

/-- How many interrupts there are in a run. -/
def interrupts (es : List Event) : ℕ := (es.map Event.interrupts).sum

/-- A buffer with so many interrupts to wait for is clean after the next one. -/
theorem World.Inv.served (inv : w.Inv) {es : List Event} (run : Run w es w') (waits : w.Waits p b)
    (mem : b ∈ w.queue) (enough : w.queue.idxOf b < interrupts es) :
    ∃ es₁ es₂ w₁, es = es₁ ++ es₂ ∧ Run w es₁ w₁ ∧ Run w₁ es₂ w' ∧
      interrupts es₁ = w.queue.idxOf b + 1 ∧ w₁.Waits p b ∧ (w₁.buf b).Clean := by
  induction run with
  | refl => exact absurd enough (Nat.not_lt_zero _)
  | @head w w₁ w' e es careful stepped rest ih =>
      rcases inv.step careful stepped with ⟨_, ⟨⟩, turned⟩
      rcases turned.queue with ⟨more, queue, fresh⟩
      have waits₁ := turned.waits p b mem waits
      have sum : interrupts (e :: es) = e.interrupts + interrupts es := by
        rw [interrupts, List.map_cons, List.sum_cons, interrupts]
      -- The turn is one of others, and `b` is still in the queue.
      have later : b ∈ w₁.queue → w.queue.idxOf b = w₁.queue.idxOf b + e.interrupts →
          ∃ es₁ es₂ w₂, e :: es = es₁ ++ es₂ ∧ Run w es₁ w₂ ∧ Run w₂ es₂ w' ∧
            interrupts es₁ = w.queue.idxOf b + 1 ∧ w₂.Waits p b ∧ (w₂.buf b).Clean := by
        intro mem₁ position
        rcases ih turned.inv waits₁ mem₁ (by omega)
          with ⟨es₁, es₂, w₂, rfl, run₁, run₂, count, waits₂, clean⟩
        refine ⟨e :: es₁, es₂, w₂, rfl, .head careful stepped run₁, run₂, ?_, waits₂, clean⟩
        rw [interrupts, List.map_cons, List.sum_cons, ← interrupts, count, position]
        omega
      by_cases quiet : e.interrupts = 0
      · rw [quiet, List.drop_zero] at queue
        have mem₁ : b ∈ w₁.queue := queue ▸ List.mem_append_left more mem
        refine later mem₁ ?_
        rw [queue, List.idxOf_append_of_mem mem, quiet, Nat.add_zero]
      · have one : e.interrupts = 1 := by
          cases e <;> first | exact absurd rfl quiet | rfl
        cases listing : w.queue with
        | nil => exact absurd mem (listing ▸ List.not_mem_nil)
        | cons c l =>
            rw [one, listing, List.drop_one, List.tail_cons] at queue
            by_cases same : b = c
            · subst same
              have gone : b ∉ w₁.queue := by
                rw [queue, List.mem_append, not_or]
                exact ⟨(List.nodup_cons.mp (listing ▸ inv.nodup)).1, fun later => fresh b later mem⟩
              refine ⟨[e], es, w₁, rfl, .head careful stepped (.refl w₁), rest, ?_, waits₁,
                (turned.inv.waiting p b waits₁).2.resolve_left gone⟩
              rw [List.idxOf_cons_self, interrupts, List.map_singleton, List.sum_singleton, one]
            · have mem' : b ∈ l := (List.mem_cons.mp (listing ▸ mem)).resolve_left same
              rw [← listing]
              refine later (queue ▸ List.mem_append_left more mem') ?_
              rw [listing, queue, List.idxOf_cons_ne _ (Ne.symm same),
                List.idxOf_append_of_mem mem', one]

/-- Requests are served in their order: a process that waits for the buffer with `k` others
before it has its transfer after `k + 1` more interrupts, whatever else happens. -/
theorem served_in_order {buf : Fin NBUF → Buf} {havedisk1 : Bool} {disk : Bool → ℕ → Block}
    {es₀ es : List Event} (before : Run (World.init buf havedisk1 disk) es₀ w)
    (asleep : w.pc p = .asleep b) (run : Run w es w') (enough : w.queue.idxOf b < interrupts es) :
    ∃ es₁ es₂ w₁, es = es₁ ++ es₂ ∧ Run w es₁ w₁ ∧ Run w₁ es₂ w' ∧
      interrupts es₁ = w.queue.idxOf b + 1 ∧ w₁.Waits p b ∧ (w₁.buf b).Clean := by
  have inv := (World.inv_init buf havedisk1 disk).run before
  exact inv.served run (.inl asleep) (inv.asleep p b asleep) enough

/-- The second of two reads is served by the second interrupt. -/
theorem served_in_order_twoReads :
    ∃ es w, Run started (twoReads ++ es) w ∧ interrupts es = 2 ∧ (w.buf 1).Clean := by
  rcases run_twoReads with ⟨w, w', run, asleep, queue, rest⟩
  have enough : w.queue.idxOf 1 < interrupts twoTransfers := by
    rw [queue]
    decide
  rcases served_in_order run asleep rest enough with ⟨es, _, w₁, _, run₁, _, count, _, clean⟩
  rw [queue] at count
  exact ⟨es, w₁, run.append run₁, count, clean⟩

end Xv6.Dev
