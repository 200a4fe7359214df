import Xv6.Bio.Bcache
import Xv6.Lib.Runs

/-!
# The buffer cache is coherent

The list is a ring of all buffers, and its order among the buffers that nobody has a
reference to is that of their release. `refcnt` counts the references: a process has one
while it holds the sleep-lock, waits for it in `bget`, or has just given it up in `brelse`.
-/

namespace Xv6.Bio

open DList DList.Links Relation

variable {P : Type} {w w' : World P} {p : P} {b i : Fin NBUF} {l₁ l₂ : List (Fin NBUF)}
  {doing : P → Doing} {d : Doing} {n : ℕ} {order : List (Fin NBUF)}

/-! ## The invariants -/

/-- The buffer that a process has a reference to without its sleep-lock. -/
def Doing.ref : Doing → Option (Fin NBUF)
  | .locking i | .releasing i => some i
  | .other | .waiting _ => none

/-- `n` processes have a reference to buffer `b` without its sleep-lock. -/
def Count (doing : P → Doing) (b : Fin NBUF) (n : ℕ) : Prop :=
  ∃ s : Finset P, (∀ p, p ∈ s ↔ (doing p).ref = some b) ∧ s.card = n

def Counted (w : World P) : Prop :=
  ∀ b, ∃ n, Count w.doing b n ∧ (w.buf b).refcnt = n + (w.buf b).lock.isSome.toNat

structure Listed (w : World P) (order : List (Fin NBUF)) : Prop where
  ring : w.links.Ring .head (order.map .buf)
  all : ∀ b, b ∈ order

/-- Of two buffers without references, the one closer to the front was released later. -/
structure Aged (w : World P) (order : List (Fin NBUF)) : Prop where
  sorted : order.Pairwise fun x y => (w.buf x).refcnt = 0 → (w.buf y).refcnt = 0 →
    w.released y ≤ w.released x
  past : ∀ b, w.released b ≤ w.clock

/-- A block of `ROOTDEV` has one buffer. -/
def Single (w : World P) : Prop :=
  ∀ b c, (w.buf b).dev = BitVec.ofNat 32 ROOTDEV → (w.buf c).dev = BitVec.ofNat 32 ROOTDEV →
    (w.buf b).blockno = (w.buf c).blockno → b = c

structure Inv (w : World P) : Prop where
  listed : ∃ order, Listed w order ∧ Aged w order
  single : Single w
  counted : Counted w

/-! ## Searching the list -/

theorem Listed.nodup (listed : Listed w order) : order.Nodup :=
  (List.nodup_cons.mp listed.ring.nodup).2.of_map

theorem Listed.length (listed : Listed w order) : order.length = NBUF := by
  have perm : order.Perm (List.finRange NBUF) :=
    (List.perm_ext_iff_of_nodup listed.nodup (List.nodup_finRange _)).mpr fun i =>
      iff_of_true (listed.all i) (List.mem_finRange i)
  rw [perm.length_eq, List.length_finRange]

theorem Listed.cached (listed : Listed w order) (dev blockno : Word) : w.cached dev blockno =
    some ((order.find? fun i => w.isFor dev blockno (.buf i)).map .buf) := by
  have short : (order.map Node.buf).length < NBUF + 1 := by
    rw [List.length_map, listed.length]
    exact Nat.lt_succ_self _
  rw [World.cached, listed.ring.search short, List.find?_map]
  rfl

/-- The scan from the tail of the list finds the last unused buffer of the order. -/
theorem Listed.unused (listed : Listed w order) : w.unused =
    some ((order.reverse.find? fun i => w.isUnused (.buf i)).map .buf) := by
  have ring := listed.ring.flip
  rw [← List.map_reverse] at ring
  have short : (order.reverse.map Node.buf).length < NBUF + 1 := by
    rw [List.length_map, List.length_reverse, listed.length]
    exact Nat.lt_succ_self _
  have search : Links.search _ _ w.isUnused _ _ = _ := ring.search short
  rw [List.find?_map] at search
  exact search

theorem Listed.of_miss (listed : Listed w order) {dev blockno : Word}
    (miss : w.cached dev blockno = some none) :
    ¬((w.buf b).dev = dev ∧ (w.buf b).blockno = blockno) := by
  rw [listed.cached] at miss
  have none := Option.map_eq_none_iff.mp (Option.some.inj miss)
  simpa [World.isFor] using List.find?_eq_none.mp none b (listed.all b)

/-- The buffer that is recycled has no references, is clean, and was released first of those. -/
theorem Listed.of_unused (listed : Listed w order) (aged : Aged w order)
    (found : w.unused = some (some (.buf i))) : (w.buf i).refcnt = 0 ∧ (w.buf i).dirty = false ∧
      ∀ c, (w.buf c).refcnt = 0 → (w.buf c).dirty = false → w.released i ≤ w.released c := by
  rw [listed.unused] at found
  rcases Option.map_eq_some_iff.mp (Option.some.inj found) with ⟨j, first, same⟩
  cases same
  rcases List.find?_eq_some_iff_append.mp first with ⟨is, behind, before, split, notBehind⟩
  simp only [World.isUnused, decide_eq_true_eq] at is
  refine ⟨is.1, is.2, fun c refcnt clean => ?_⟩
  have forwards : order = before.reverse ++ i :: behind.reverse := by
    rw [← List.reverse_reverse order, split]
    simp
  have mem := listed.all c
  rw [forwards, List.mem_append, List.mem_cons, List.mem_reverse, List.mem_reverse] at mem
  rcases mem with ahead | rfl | after
  · have sorted := aged.sorted
    rw [forwards, List.pairwise_append] at sorted
    exact sorted.2.2 c (List.mem_reverse.mpr ahead) i List.mem_cons_self refcnt is.1
  · exact le_rfl
  · have not := notBehind c after
    simp [World.isUnused, refcnt, clean] at not

/-! ## The order of the list -/

theorem Listed.congr (listed : Listed w order) (links : w'.links = w.links) : Listed w' order where
  ring := by
    rw [links]
    exact listed.ring
  all := listed.all

/-- The order of the releases does not change when no buffer becomes free and none is taken. -/
theorem Aged.congr (aged : Aged w order)
    (refcnt : ∀ b, (w'.buf b).refcnt = 0 → (w.buf b).refcnt = 0)
    (released : w'.released = w.released) (clock : w'.clock = w.clock) : Aged w' order where
  sorted := by
    rw [released]
    refine aged.sorted.imp fun older freeX freeY => ?_
    exact older (refcnt _ freeX) (refcnt _ freeY)
  past := by
    rw [released, clock]
    exact aged.past

/-- A buffer that still has references is released. -/
theorem Aged.release (aged : Aged w order)
    (refcnt : ∀ b, b ≠ i → (w'.buf b).refcnt = (w.buf b).refcnt) (inUse : (w'.buf i).refcnt ≠ 0)
    (released : w'.released = Function.update w.released i (w.clock + 1))
    (clock : w'.clock = w.clock + 1) : Aged w' order where
  sorted := by
    refine aged.sorted.imp fun {x y} older freeX freeY => ?_
    have otherX : x ≠ i := by
      rintro rfl
      exact inUse freeX
    have otherY : y ≠ i := by
      rintro rfl
      exact inUse freeY
    rw [released, Function.update_of_ne otherX, Function.update_of_ne otherY]
    rw [refcnt x otherX] at freeX
    rw [refcnt y otherY] at freeY
    exact older freeX freeY
  past := by
    intro b
    rw [released, clock]
    by_cases same : b = i
    · rw [same, Function.update_self]
    · rw [Function.update_of_ne same]
      exact (aged.past b).trans (Nat.le_succ _)

/-- The last reference to a buffer is released, and the buffer goes to the front. -/
theorem Aged.moveToFront (aged : Aged w (l₁ ++ i :: l₂)) (nodup : (l₁ ++ i :: l₂).Nodup)
    (refcnt : ∀ b, b ≠ i → (w'.buf b).refcnt = (w.buf b).refcnt)
    (released : w'.released = Function.update w.released i (w.clock + 1))
    (clock : w'.clock = w.clock + 1) : Aged w' (i :: (l₁ ++ l₂)) where
  sorted := by
    have fresh : i ∉ l₁ ++ l₂ := (List.nodup_cons.mp (List.nodup_middle.mp nodup)).1
    have other : ∀ x ∈ l₁ ++ l₂, x ≠ i := by
      rintro x mem rfl
      exact fresh mem
    refine List.pairwise_cons.mpr ⟨fun y mem _ _ => ?_, ?_⟩
    · rw [released, Function.update_self, Function.update_of_ne (other y mem)]
      exact (aged.past y).trans (Nat.le_succ _)
    · have sorted := aged.sorted.sublist ((List.sublist_cons_self i l₂).append_left l₁)
      refine sorted.imp_of_mem fun {x y} memX memY older freeX freeY => ?_
      rw [released, Function.update_of_ne (other x memX), Function.update_of_ne (other y memY)]
      rw [refcnt x (other x memX)] at freeX
      rw [refcnt y (other y memY)] at freeY
      exact older freeX freeY
  past := by
    intro b
    rw [released, clock]
    by_cases same : b = i
    · rw [same, Function.update_self]
    · rw [Function.update_of_ne same]
      exact (aged.past b).trans (Nat.le_succ _)

theorem Single.congr (single : Single w) (dev : ∀ b, (w'.buf b).dev = (w.buf b).dev)
    (blockno : ∀ b, (w'.buf b).blockno = (w.buf b).blockno) : Single w' := by
  intro b c devB devC same
  rw [dev] at devB devC
  rw [blockno, blockno] at same
  exact single b c devB devC same

/-! ## Counting references -/

theorem Counted.congr (inv : Counted w) (doing : w'.doing = w.doing)
    (refcnt : ∀ b, (w'.buf b).refcnt = (w.buf b).refcnt)
    (lock : ∀ b, (w'.buf b).lock = (w.buf b).lock) : Counted w' := by
  intro b
  rw [doing, refcnt, lock]
  exact inv b

/-- Whoever uses a buffer has a reference. -/
theorem Counted.used (inv : Counted w)
    (uses : (w.doing p).ref = some b ∨ (w.buf b).lock = some p) : (w.buf b).refcnt ≠ 0 := by
  rcases inv b with ⟨n, ⟨s, mem, card⟩, refcnt⟩
  rcases uses with ref | locked
  · have positive : 0 < s.card := Finset.card_pos.mpr ⟨p, (mem p).mpr ref⟩
    omega
  · rw [locked] at refcnt
    simp only [Option.isSome_some, Bool.toNat_true] at refcnt
    omega

/-- What a buffer is for does not change, and no reference is lost. -/
theorem Inv.congr (inv : Inv w) (links : w'.links = w.links)
    (refcnt : ∀ b, (w'.buf b).refcnt = 0 → (w.buf b).refcnt = 0)
    (released : w'.released = w.released) (clock : w'.clock = w.clock)
    (dev : ∀ b, (w'.buf b).dev = (w.buf b).dev)
    (blockno : ∀ b, (w'.buf b).blockno = (w.buf b).blockno) (counted : Counted w') : Inv w' where
  listed := by
    rcases inv.listed with ⟨order, listed, aged⟩
    exact ⟨order, listed.congr links, aged.congr refcnt released clock⟩
  single := inv.single.congr dev blockno
  counted := counted

/-- A buffer changes, but not what it is for. -/
theorem Inv.set {buf : Buf P} (inv : Inv w) (bufs : w'.buf = Function.update w.buf i buf)
    (links : w'.links = w.links) (refcnt : buf.refcnt = 0 → (w.buf i).refcnt = 0)
    (released : w'.released = w.released) (clock : w'.clock = w.clock)
    (dev : buf.dev = (w.buf i).dev) (blockno : buf.blockno = (w.buf i).blockno)
    (counted : Counted w') : Inv w' := by
  have at_buffer : ∀ (property : Buf P → Buf P → Prop), property buf (w.buf i) →
      (∀ b, property (w.buf b) (w.buf b)) → ∀ b, property (w'.buf b) (w.buf b) := by
    intro property here elsewhere b
    rw [bufs]
    by_cases same : b = i
    · rw [same, Function.update_self]
      exact here
    · rw [Function.update_of_ne same]
      exact elsewhere b
  exact inv.congr links
    (at_buffer (fun new old => new.refcnt = 0 → old.refcnt = 0) refcnt fun _ => id) released clock
    (at_buffer (fun new old => new.dev = old.dev) dev fun _ => rfl)
    (at_buffer (fun new old => new.blockno = old.blockno) blockno fun _ => rfl) counted

/-- Only the flags of a buffer change. -/
theorem Inv.flags {valid dirty : Bool} (inv : Inv w) :
    Inv (w.set i { w.buf i with valid := valid, dirty := dirty }) := by
  have same : ∀ b, ((w.set i { w.buf i with valid := valid, dirty := dirty }).buf b).refcnt =
      (w.buf b).refcnt ∧
      ((w.set i { w.buf i with valid := valid, dirty := dirty }).buf b).lock = (w.buf b).lock := by
    intro b
    by_cases here : b = i
    · rw [here, World.set_self]
      exact ⟨rfl, rfl⟩
    · rw [World.set_of_ne _ here]
      exact ⟨rfl, rfl⟩
  exact inv.set rfl rfl id rfl rfl rfl rfl
    (inv.counted.congr rfl (fun b => (same b).1) fun b => (same b).2)

/-! ## What holds of a run -/

structure Coherent (w : World P) : Prop where
  forward : ∀ b, ∃! k, k < NBUF ∧ w.links.next^[k + 1] .head = .buf b
  backward : ∀ b, ∃! k, k < NBUF ∧ w.links.prev^[k + 1] .head = .buf b
  round : w.links.next^[NBUF + 1] .head = .head ∧ w.links.prev^[NBUF + 1] .head = .head
  inverse : ∀ n, w.links.prev (w.links.next n) = n ∧ w.links.next (w.links.prev n) = n
  /-- The loops of `bget` end. -/
  searches : (∀ dev blockno, w.cached dev blockno ≠ none) ∧ w.unused ≠ none
  single : Single w
  /-- A buffer that a process holds, or is about to, has a reference. -/
  used : ∀ p b, (w.doing p).ref = some b ∨ (w.buf b).lock = some p → (w.buf b).refcnt ≠ 0

/-- The invariant says what a reader of the cache needs to know. -/
theorem Inv.coherent (inv : Inv w) : Coherent w := by
  rcases inv.listed with ⟨order, listed, _⟩
  have length : (order.map Node.buf).length = NBUF := by
    rw [List.length_map, listed.length]
  have lengthBack : (order.map Node.buf).reverse.length = NBUF := by
    rw [List.length_reverse, length]
  have mem : ∀ n, n ∈ Node.head :: order.map Node.buf := by
    intro n
    cases n with
    | head => exact List.mem_cons_self
    | buf b => exact List.mem_cons_of_mem _ (List.mem_map_of_mem (listed.all b))
  have memBack : ∀ n, n ∈ Node.head :: (order.map Node.buf).reverse := by
    intro n
    simpa using mem n
  have ring := listed.ring
  refine ⟨fun b => ?_, fun b => ?_, ⟨?_, ?_⟩, fun n => ⟨?_, ?_⟩, ⟨fun dev blockno => ?_, ?_⟩,
    inv.single, fun p b => inv.counted.used⟩
  · have once := ring.once (n := .buf b) (List.mem_map_of_mem (listed.all b))
    rwa [length] at once
  · have once := ring.flip.once (n := .buf b)
      (List.mem_reverse.mpr (List.mem_map_of_mem (listed.all b)))
    rwa [lengthBack] at once
  · have round := ring.round
    rwa [length] at round
  · have round := ring.flip.round
    rwa [lengthBack] at round
  · exact ring.path.prev_next (mem n)
  · exact ring.flip.path.prev_next (memBack n)
  · rw [listed.cached]
    rintro ⟨⟩
  · rw [listed.unused]
    rintro ⟨⟩

/-- Buffer `b` is assigned to another block. -/
def Reassigned (w w' : World P) (b : Fin NBUF) : Prop :=
  ¬((w'.buf b).dev = (w.buf b).dev ∧ (w'.buf b).blockno = (w.buf b).blockno)

/-- A buffer that nobody uses, and that was released before the others of those. -/
structure Oldest (w : World P) (b : Fin NBUF) : Prop where
  unused : (w.buf b).refcnt = 0
  clean : (w.buf b).dirty = false
  oldest : ∀ c, (w.buf c).refcnt = 0 → (w.buf c).dirty = false → w.released b ≤ w.released c

/-- A buffer that keeps its `dev` and `blockno` has not been reassigned. -/
theorem not_reassigned {buf : Buf P} (bufs : w'.buf = Function.update w.buf i buf)
    (dev : buf.dev = (w.buf i).dev) (blockno : buf.blockno = (w.buf i).blockno) :
    ¬Reassigned w w' b := by
  intro reassigned
  apply reassigned
  rw [bufs]
  by_cases same : b = i
  · rw [same, Function.update_self]
    exact ⟨dev, blockno⟩
  · rw [Function.update_of_ne same]
    exact ⟨rfl, rfl⟩

/-- The invariant holds after `binit`. -/
theorem Inv.init (links : Links Node) : Inv (World.init links : World P) where
  listed := by
    -- After some turns of the loop of `binit`, the list holds the buffers it has seen.
    have loop : ∀ (links : Links Node) (seen rest : List (Fin NBUF)),
        links.Ring .head (seen.map .buf) → (seen ++ rest).Nodup →
        (rest.foldl (fun links i => links.pushFront .head (.buf i)) links).Ring .head
          ((rest.reverse ++ seen).map .buf) := by
      intro links seen rest ring nodup
      induction rest generalizing links seen with
      | nil => simpa using ring
      | cons i rest ih =>
          have fresh : i ∉ seen :=
            fun mem => List.disjoint_of_nodup_append nodup mem List.mem_cons_self
          have next := ih (links.pushFront .head (.buf i)) (i :: seen)
            (ring.pushFront (by simpa using fresh)) (List.nodup_middle.mp nodup)
          simpa using next
    have ring := loop _ [] (List.finRange NBUF) (ring_empty links _) (List.nodup_finRange _)
    refine ⟨(List.finRange NBUF).reverse, ⟨?_, fun b => ?_⟩, ?_, fun _ => le_rfl⟩
    · rw [List.append_nil] at ring
      exact ring
    · simp
    · exact List.pairwise_of_forall fun _ _ _ _ => le_rfl
  single := by
    intro b c dev
    cases dev
  counted := fun b => ⟨0, ⟨∅, fun p => by simp [World.init, Doing.ref], rfl⟩, rfl⟩

variable [DecidableEq P]

/-! ## References come and go -/

/-- A process that gets hold of a buffer counts once more. -/
theorem Count.enter (count : Count doing b n) (none : (doing p).ref = none) (ref : d.ref = some b) :
    Count (Function.update doing p d) b (n + 1) := by
  rcases count with ⟨s, mem, card⟩
  have fresh : p ∉ s := by
    rw [mem, none]
    rintro ⟨⟩
  refine ⟨insert p s, fun q => ?_, by rw [Finset.card_insert_of_notMem fresh, card]⟩
  by_cases same : q = p
  · subst same
    simp [ref]
  · rw [Finset.mem_insert, Function.update_of_ne same, mem, or_iff_right same]

/-- A process that lets a buffer go has counted. -/
theorem Count.leave (count : Count doing b n) (ref : (doing p).ref = some b) (none : d.ref = none) :
    ∃ m, n = m + 1 ∧ Count (Function.update doing p d) b m := by
  rcases count with ⟨s, mem, card⟩
  have inside : p ∈ s := (mem p).mpr ref
  refine ⟨(s.erase p).card, ?_, s.erase p, fun q => ?_, rfl⟩
  · rw [Finset.card_erase_add_one inside, card]
  · by_cases same : q = p
    · subst same
      simp [none]
    · rw [Finset.mem_erase, Function.update_of_ne same, mem, and_iff_right same]

theorem Count.congr (count : Count doing b n) (before : (doing p).ref ≠ some b)
    (after : d.ref ≠ some b) : Count (Function.update doing p d) b n := by
  rcases count with ⟨s, mem, card⟩
  refine ⟨s, fun q => ?_, card⟩
  by_cases same : q = p
  · subst same
    rw [Function.update_self, mem]
    exact iff_of_false before after
  · rw [Function.update_of_ne same, mem]

/-- Only buffer `i` and process `p` change. -/
theorem Counted.set {buf : Buf P} (inv : Counted w) (bufs : w'.buf = Function.update w.buf i buf)
    (doings : w'.doing = Function.update w.doing p d)
    (before : ∀ b, b ≠ i → (w.doing p).ref ≠ some b) (after : ∀ b, b ≠ i → d.ref ≠ some b)
    (here : ∀ n, Count w.doing i n → (w.buf i).refcnt = n + (w.buf i).lock.isSome.toNat →
      ∃ m, Count (Function.update w.doing p d) i m ∧ buf.refcnt = m + buf.lock.isSome.toNat) :
    Counted w' := by
  intro b
  rw [bufs, doings]
  rcases inv b with ⟨n, count, refcnt⟩
  by_cases same : b = i
  · subst same
    rw [Function.update_self]
    exact here n count refcnt
  · rw [Function.update_of_ne same]
    exact ⟨n, count.congr (before b same) (after b same), refcnt⟩

theorem Counted.becomes (inv : Counted w) (before : (w.doing p).ref = none) (after : d.ref = none) :
    Counted (w.becomes p d) := by
  intro b
  rcases inv b with ⟨n, count, refcnt⟩
  refine ⟨n, count.congr ?_ ?_, refcnt⟩
  · rw [before]
    rintro ⟨⟩
  · rw [after]
    rintro ⟨⟩

/-! ## Every step -/

theorem Inv.becomes (inv : Inv w) (before : (w.doing p).ref = none) (after : d.ref = none) :
    Inv (w.becomes p d) :=
  inv.congr rfl (fun _ => id) rfl rfl (fun _ => rfl) (fun _ => rfl)
    (inv.counted.becomes before after)

/-- `bget` finds the block in the cache. -/
theorem Inv.hit (inv : Inv w) (idle : w.doing p = .other) :
    Inv ((w.set i { w.buf i with refcnt := (w.buf i).refcnt + 1 }).becomes p (.locking i)) := by
  have noRef : (w.doing p).ref = none := by
    rw [idle]
    rfl
  refine inv.set rfl rfl (fun zero => absurd zero (Nat.succ_ne_zero _)) rfl rfl rfl rfl ?_
  refine inv.counted.set rfl rfl (fun b _ => ?_) (fun b other => ?_) fun n count refcnt => ?_
  · rw [noRef]
    rintro ⟨⟩
  · rintro ⟨⟩
    exact other rfl
  · refine ⟨n + 1, count.enter noRef rfl, ?_⟩
    change (w.buf i).refcnt + 1 = n + 1 + (w.buf i).lock.isSome.toNat
    omega

/-- `bget` gives a free buffer to a block that has none. -/
theorem Inv.recycled (inv : Inv w) (idle : w.doing p = .other) (free : (w.buf i).refcnt = 0)
    {blockno : Word} (miss : ∀ b, ¬((w.buf b).dev = BitVec.ofNat 32 ROOTDEV ∧
      (w.buf b).blockno = blockno)) :
    Inv ((w.set i { w.buf i with
      dev := BitVec.ofNat 32 ROOTDEV, blockno := blockno, valid := false, dirty := false,
      refcnt := 1 }).becomes p (.locking i)) where
  listed := by
    rcases inv.listed with ⟨order, listed, aged⟩
    refine ⟨order, listed.congr rfl, aged.congr (fun b zero => ?_) rfl rfl⟩
    by_cases same : b = i
    · rw [same, free]
    · change (Function.update w.buf i _ b).refcnt = 0 at zero
      rwa [Function.update_of_ne same] at zero
  single := by
    intro b c devB devC same
    change (Function.update w.buf i _ b).dev = _ at devB
    change (Function.update w.buf i _ c).dev = _ at devC
    change (Function.update w.buf i _ b).blockno = (Function.update w.buf i _ c).blockno at same
    by_cases sameB : b = i
    · by_cases sameC : c = i
      · rw [sameB, sameC]
      · rw [Function.update_of_ne sameC] at devC same
        rw [sameB, Function.update_self] at same
        exact absurd ⟨devC, same.symm⟩ (miss c)
    · rw [Function.update_of_ne sameB] at devB same
      by_cases sameC : c = i
      · rw [sameC, Function.update_self] at same
        exact absurd ⟨devB, same⟩ (miss b)
      · rw [Function.update_of_ne sameC] at devC same
        exact inv.single b c devB devC same
  counted := by
    have noRef : (w.doing p).ref = none := by
      rw [idle]
      rfl
    refine inv.counted.set rfl rfl (fun b _ => ?_) (fun b other => ?_) fun n count refcnt => ?_
    · rw [noRef]
      rintro ⟨⟩
    · rintro ⟨⟩
      exact other rfl
    · refine ⟨n + 1, count.enter noRef rfl, ?_⟩
      change 1 = n + 1 + (w.buf i).lock.isSome.toNat
      omega

/-- `bget` keeps the invariant, where it finds a buffer. -/
theorem Inv.bget (inv : Inv w) (idle : w.doing p = .other) {blockno : Word}
    (got : w.bget p (BitVec.ofNat 32 ROOTDEV) blockno = some w') : Inv w' := by
  rcases inv.listed with ⟨order, listed, aged⟩
  rw [World.bget] at got
  split at got
  case h_1 i _ =>
    cases got
    exact inv.hit idle
  case h_2 miss =>
    split at got
    case h_1 i found =>
      cases got
      exact inv.recycled idle (listed.of_unused aged found).1 fun _ => listed.of_miss miss
    case h_2 => cases got
  case h_3 => cases got

/-- The process behind `bget` gets the sleep-lock of its buffer. -/
theorem Inv.acquiresleep (inv : Inv w) (locking : w.doing p = .locking i)
    (unlocked : (w.buf i).lock = none) (noRef : d.ref = none) :
    Inv ((w.set i { w.buf i with lock := some p }).becomes p d) := by
  have ref : (w.doing p).ref = some i := by
    rw [locking]
    rfl
  refine inv.set rfl rfl id rfl rfl rfl rfl ?_
  refine inv.counted.set rfl rfl (fun b other same => ?_) (fun b _ => ?_) fun n count refcnt => ?_
  · rw [ref] at same
    exact other (Option.some.inj same).symm
  · rw [noRef]
    rintro ⟨⟩
  · rcases count.leave ref noRef with ⟨m, rfl, fewer⟩
    rw [unlocked] at refcnt
    exact ⟨m, fewer, refcnt⟩

/-- The first half of `brelse` gives the sleep-lock back. -/
theorem Inv.brelse (inv : Inv w) (idle : w.doing p = .other) (locked : (w.buf i).lock = some p) :
    Inv ((w.set i { w.buf i with lock := none }).becomes p (.releasing i)) := by
  have noRef : (w.doing p).ref = none := by
    rw [idle]
    rfl
  refine inv.set rfl rfl id rfl rfl rfl rfl ?_
  refine inv.counted.set rfl rfl (fun b _ => ?_) (fun b other => ?_) fun n count refcnt => ?_
  · rw [noRef]
    rintro ⟨⟩
  · rintro ⟨⟩
    exact other rfl
  · rw [locked] at refcnt
    exact ⟨n + 1, count.enter noRef rfl, refcnt⟩

theorem relink_buf (w : World P) (p : P) (i : Fin NBUF) : (w.relink p i).buf =
    Function.update w.buf i { w.buf i with refcnt := (w.buf i).refcnt - 1 } := by
  rw [World.relink]
  split_ifs <;> rfl

/-- The second half of `brelse` moves a buffer that has become free to the head of the list. -/
theorem Inv.relink (inv : Inv w) (releasing : w.doing p = .releasing i) : Inv (w.relink p i) := by
  have ref : (w.doing p).ref = some i := by
    rw [releasing]
    rfl
  have bufs := relink_buf w p i
  have doings : (w.relink p i).doing = Function.update w.doing p .other := by
    rw [World.relink]
    split_ifs <;> rfl
  have released : (w.relink p i).released = Function.update w.released i (w.clock + 1) := by
    rw [World.relink]
    split_ifs <;> rfl
  have clock : (w.relink p i).clock = w.clock + 1 := by
    rw [World.relink]
    split_ifs <;> rfl
  have others : ∀ b, b ≠ i → ((w.relink p i).buf b).refcnt = (w.buf b).refcnt := by
    intro b other
    rw [bufs, Function.update_of_ne other]
  refine ⟨?_, ?_, ?_⟩
  · rcases inv.listed with ⟨order, listed, aged⟩
    by_cases last : (w.buf i).refcnt - 1 = 0
    · have links : (w.relink p i).links = (w.links.unlink (.buf i)).pushFront .head (.buf i) := by
        rw [World.relink, if_pos last]
      rcases List.append_of_mem (listed.all i) with ⟨before, after, rfl⟩
      refine ⟨i :: (before ++ after), ⟨?_, fun b => ?_⟩,
        aged.moveToFront listed.nodup others released clock⟩
      · have ring := listed.ring
        rw [List.map_append, List.map_cons] at ring
        rw [links, List.map_cons, List.map_append]
        exact ring.moveToFront
      · have mem := listed.all b
        rw [List.mem_append, List.mem_cons] at mem
        rw [List.mem_cons, List.mem_append]
        tauto
    · have links : (w.relink p i).links = w.links := by
        rw [World.relink, if_neg last]
        rfl
      refine ⟨order, listed.congr links, aged.release others ?_ released clock⟩
      rw [bufs, Function.update_self]
      exact last
  · have sameBlock : ∀ b, ((w.relink p i).buf b).dev = (w.buf b).dev ∧
        ((w.relink p i).buf b).blockno = (w.buf b).blockno := by
      intro b
      rw [bufs]
      by_cases same : b = i
      · rw [same, Function.update_self]
        exact ⟨rfl, rfl⟩
      · rw [Function.update_of_ne same]
        exact ⟨rfl, rfl⟩
    exact inv.single.congr (fun b => (sameBlock b).1) fun b => (sameBlock b).2
  · refine inv.counted.set bufs doings (fun b other same => ?_) (fun b _ => ?_)
      fun n count refcnt => ?_
    · rw [ref] at same
      exact other (Option.some.inj same).symm
    · rintro ⟨⟩
    · rcases count.leave ref (d := .other) rfl with ⟨m, rfl, fewer⟩
      refine ⟨m, fewer, ?_⟩
      change (w.buf i).refcnt - 1 = m + (w.buf i).lock.isSome.toNat
      omega

/-- Every step keeps the invariant. -/
theorem Inv.step {a : Action P} (inv : Inv w) (stepped : step w a = some w') : Inv w' := by
  cases a with
  | bget p blockno =>
      simp only [Bio.step] at stepped
      split_ifs at stepped with idle
      exact inv.bget idle stepped
  | acquiresleep p =>
      simp only [Bio.step] at stepped
      split at stepped
      case h_1 i locking =>
        split_ifs at stepped with unlocked valid
        · cases stepped
          exact inv.acquiresleep locking unlocked rfl
        · cases stepped
          exact inv.acquiresleep locking unlocked rfl
      case h_2 => cases stepped
  | ideintr p =>
      simp only [Bio.step] at stepped
      split at stepped
      case h_1 i _ =>
        cases stepped
        exact inv.flags
      case h_2 => cases stepped
  | iderw p =>
      simp only [Bio.step] at stepped
      split at stepped
      case h_1 i waiting =>
        split_ifs at stepped with done
        cases stepped
        refine inv.becomes ?_ rfl
        rw [waiting]
        rfl
      case h_2 => cases stepped
  | bwrite p i =>
      simp only [Bio.step] at stepped
      split_ifs at stepped with holds
      cases stepped
      refine inv.flags.becomes ?_ rfl
      change (w.doing p).ref = none
      rw [holds.1]
      rfl
  | logWrite i =>
      cases stepped
      exact inv.flags
  | brelse p i =>
      simp only [Bio.step] at stepped
      split_ifs at stepped with holds
      cases stepped
      exact inv.brelse holds.1 holds.2
  | relink p =>
      simp only [Bio.step] at stepped
      split at stepped
      case h_1 i releasing =>
        cases stepped
        exact inv.relink releasing
      case h_2 => cases stepped

/-! ## Every run -/

def Steps (w w' : World P) : Prop := ∃ a, step w a = some w'

theorem inv_of_run {links : Links Node} (run : ReflTransGen Steps (World.init links) w) : Inv w :=
  Runs.invariant_of_run (fun _ _ ⟨_, stepped⟩ before => before.step stepped) run (Inv.init links)

/-- Only `bget` assigns a buffer to another block. -/
theorem Inv.oldest {a : Action P} (inv : Inv w) (stepped : Bio.step w a = some w')
    (reassigned : Reassigned w w' b) : Oldest w b := by
  cases a with
  | bget p blockno =>
      rcases inv.listed with ⟨order, listed, aged⟩
      simp only [Bio.step] at stepped
      split_ifs at stepped
      rw [World.bget] at stepped
      split at stepped
      case h_1 =>
        cases stepped
        exact absurd reassigned (not_reassigned rfl rfl rfl)
      case h_2 =>
        split at stepped
        case h_1 i found =>
          cases stepped
          rcases listed.of_unused aged found with ⟨unused, clean, oldest⟩
          by_cases same : b = i
          · subst same
            exact ⟨unused, clean, oldest⟩
          · refine absurd ?_ reassigned
            change (Function.update w.buf i _ b).dev = _ ∧ (Function.update w.buf i _ b).blockno = _
            rw [Function.update_of_ne same]
            exact ⟨rfl, rfl⟩
        case h_2 => cases stepped
      case h_3 => cases stepped
  | acquiresleep p =>
      simp only [Bio.step] at stepped
      split at stepped
      case h_1 =>
        split_ifs at stepped
        all_goals
          cases stepped
          exact absurd reassigned (not_reassigned rfl rfl rfl)
      case h_2 => cases stepped
  | ideintr p =>
      simp only [Bio.step] at stepped
      split at stepped
      case h_1 =>
        cases stepped
        exact absurd reassigned (not_reassigned rfl rfl rfl)
      case h_2 => cases stepped
  | iderw p =>
      simp only [Bio.step] at stepped
      split at stepped
      case h_1 =>
        split_ifs at stepped
        cases stepped
        exact absurd ⟨rfl, rfl⟩ reassigned
      case h_2 => cases stepped
  | bwrite p i =>
      simp only [Bio.step] at stepped
      split_ifs at stepped
      cases stepped
      exact absurd reassigned (not_reassigned rfl rfl rfl)
  | logWrite i =>
      cases stepped
      exact absurd reassigned (not_reassigned rfl rfl rfl)
  | brelse p i =>
      simp only [Bio.step] at stepped
      split_ifs at stepped
      cases stepped
      exact absurd reassigned (not_reassigned rfl rfl rfl)
  | relink p =>
      simp only [Bio.step] at stepped
      split at stepped
      case h_1 i _ =>
        cases stepped
        refine absurd reassigned (not_reassigned (i := i) (relink_buf w p i) rfl rfl)
      case h_2 => cases stepped

/-- Whatever processes do with the cache, no block has two buffers, no buffer has two holders, and
the buffer that `bget` reuses is the one that has been free longest. -/
theorem coherent_of_run (links : Links Node) (w : World P)
    (run : ReflTransGen Steps (World.init links) w) :
    Coherent w ∧ ∀ w', Steps w w' → ∀ b, Reassigned w w' b → Oldest w b := by
  have inv := inv_of_run run
  refine ⟨inv.coherent, fun w' steps b reassigned => ?_⟩
  rcases steps with ⟨a, stepped⟩
  exact inv.oldest stepped reassigned

/-- Process 0 has read and released a block, and process 1 is about to lock another. -/
theorem coherent_of_run_released : ∃ w : World (Fin 2),
    ReflTransGen Steps (World.init ⟨id, id⟩) w ∧ w.clock = 1 ∧
      (Coherent w ∧ ∀ w', Steps w w' → ∀ b, Reassigned w w' b → Oldest w b) := by
  let actions : List (Action (Fin 2)) := [.bget 0 5, .acquiresleep 0, .ideintr 0, .iderw 0,
    .brelse 0 0, .relink 0, .bget 1 7]
  have done : (actions.foldlM step (World.init ⟨id, id⟩ : World (Fin 2))).isSome ∧
      (actions.foldlM step (World.init ⟨id, id⟩ : World (Fin 2))).map World.clock = some 1 := by
    decide +kernel
  rcases Option.isSome_iff_exists.mp done.1 with ⟨w, is⟩
  have clock := done.2
  rw [is] at clock
  have run : ReflTransGen Steps _ w := Runs.run_of_foldlM actions is
  exact ⟨w, run, Option.some.inj clock, coherent_of_run ⟨id, id⟩ w run⟩

end Xv6.Bio
