import Xv6.Lib.Runs
import Xv6.User.Malloc

/-!
# The blocks of the user allocator

Any sequence of calls of `malloc` and `free`, each `free` of a pointer that `malloc` has returned
and that has not been freed. The live blocks and the free ones tile the memory that the kernel has
given.
-/

namespace Xv6.User

open Prog Extents Relation

variable {σ : Type} {os : Os σ}

structure Allocator (σ : Type) where
  heap : Heap σ
  /-- The pointers that have not been freed, each with the number of bytes asked for. -/
  live : List (ℕ × ℕ)

/-- A call that returns, with whatever fuel. -/
inductive AllocStep (os : Os σ) (base : ℕ) (m : Allocator σ) : Allocator σ → Prop where
  | malloc {nbytes : Word} {fuel p : ℕ} {heap : Heap σ} (small : nbytes.toNat < 2 ^ 31 - 16)
      (returned : malloc os base fuel nbytes m.heap = .ok (p, heap)) :
      AllocStep os base m ⟨heap, if p = 0 then m.live else (p, nbytes.toNat) :: m.live⟩
  | free {p n fuel : ℕ} {heap : Heap σ} (live : (p, n) ∈ m.live)
    (returned : free os fuel p m.heap = .ok ((), heap)) :
      AllocStep os base m ⟨heap, m.live.erase (p, n)⟩

/-- The block of a pointer, with its header. -/
def block (s : Heap σ) (p : ℕ) : Extent := ⟨p - HEADER, (s.header (p - HEADER)).size⟩

/-- The blocks of `live` hold the bytes asked for, behind their headers. -/
structure Live (s : Heap σ) (start limit : ℕ) (live : List (ℕ × ℕ)) : Prop where
  within : ∀ a ∈ live, start + HEADER ≤ a.1 ∧ (block s a.1).hi HEADER ≤ limit
  large : ∀ a ∈ live, a.1 + a.2 ≤ (block s a.1).hi HEADER
  apart : live.Pairwise fun a b =>
    Disjoint ((block s a.1).bytes HEADER) ((block s b.1).bytes HEADER)

/-- The free blocks and those of `live` tile the memory from `start` to `limit`. -/
structure Tiled (s : Heap σ) (base start limit : ℕ) (xs : List Extent) (live : List (ℕ × ℕ)) :
    Prop where
  ready : s.freep = 0 ∧ xs = [] ∧ live = [] ∨ FreeList s base start limit xs
  blocks : Live s start limit live
  disjoint : ∀ a ∈ live, Disjoint ((block s a.1).bytes HEADER) (covered HEADER xs)
  tiles : covered HEADER xs ∪ covered HEADER (live.map fun a => block s a.1) = Set.Ico start limit

variable {valid : σ → Prop} {limit : σ → ℕ} {base start top top' : ℕ} {s s' : Heap σ}
  {xs ys : List Extent} {live : List (ℕ × ℕ)} {a : ℕ × ℕ}

theorem Live.lo_mem (blocks : Live s start top live) (mem : a ∈ live) :
    (block s a.1).lo ∈ (block s a.1).bytes HEADER := by
  have from_ := (blocks.within a mem).1
  have large := blocks.large a mem
  refine ⟨le_rfl, ?_⟩
  simp only [block, HEADER] at *
  omega

/-- Live blocks stay as they are when their headers do. -/
theorem block_congr (same : s'.header (block s a.1).lo = s.header (block s a.1).lo) :
    block s' a.1 = block s a.1 := by
  rw [block, block]
  exact congrArg (fun h : Header => (⟨a.1 - HEADER, h.size⟩ : Extent)) same

/-- Blocks whose headers stay are still live. -/
theorem Live.congr (blocks : Live s start top live) (le : top ≤ top')
    (same : ∀ a ∈ live, block s' a.1 = block s a.1) : Live s' start top' live where
  within := by
    intro a mem
    rw [same a mem]
    exact ⟨(blocks.within a mem).1, (blocks.within a mem).2.trans le⟩
  large := by
    intro a mem
    rw [same a mem]
    exact blocks.large a mem
  apart := by
    refine blocks.apart.imp_of_mem fun {a b} inA inB apart => ?_
    rw [same a inA, same b inB]
    exact apart

theorem units_small {n : ℕ} (small : n < 2 ^ 31 - 16) :
    HEADER * units n < 2 ^ 31 ∧ HEADER + n ≤ HEADER * units n := by
  simp only [units, HEADER]
  omega

/-- A call of `malloc` keeps the tiling. -/
theorem Tiled.malloc {n p : ℕ} (tiled : Tiled s base start (limit s.os) xs live)
    (image : ∀ k, valid k → Image base start (limit k)) (valid_ : valid s.os)
    (small : n < 2 ^ 31 - 16) (done : Malloced os s s' valid limit base start xs (units n) p) :
    ∃ ys, Tiled s' base start (limit s'.os) ys (if p = 0 then live else (p, n) :: live) := by
  have same : ∀ a ∈ live, block s' a.1 = block s a.1 := by
    intro a mem
    have inside := tiled.blocks.lo_mem mem
    have within := tiled.blocks.within a mem
    refine block_congr (done.frame _ ?_ (inside.2.trans_le within.2) fun isFree => ?_)
    · exact Nat.le_sub_of_add_le within.1
    · exact Set.disjoint_left.mp (tiled.disjoint a mem) inside isFree
  have live' := tiled.blocks.congr done.le same
  have unmoved : (live.map fun a => block s' a.1) = live.map fun a => block s a.1 :=
    List.map_congr_left same
  rcases done.result with ⟨rfl, list, limits, _⟩ | ⟨_, zs, ys, t, rfl, taken, covers⟩
  · refine ⟨xs, Or.inr list, ?_, ?_, ?_⟩
    · rw [if_pos rfl]
      exact live'
    · rw [if_pos rfl]
      intro a mem
      rw [same a mem]
      exact tiled.disjoint a mem
    · rw [if_pos rfl, unmoved, limits]
      exact tiled.tiles
  · have all : covered HEADER zs ∪ covered HEADER (live.map fun a => block s a.1) =
        Set.Ico start (limit s'.os) := by
      rw [covers, Set.union_right_comm, tiled.tiles]
      exact Set.Ico_union_Ico_eq_Ico (image _ valid_).start_le done.le
    have apart : ∀ a ∈ live, Disjoint ((block s' a.1).bytes HEADER) (covered HEADER zs) := by
      intro a mem
      rw [same a mem, covers, Set.disjoint_union_right]
      refine ⟨tiled.disjoint a mem, ?_⟩
      rw [Set.disjoint_left]
      intro b inside new
      exact absurd (inside.2.trans_le (tiled.blocks.within a mem).2) (Nat.not_lt.mpr new.1)
    have this_ : block s' (t.lo + HEADER) = t := by
      rw [block, Nat.add_sub_cancel, taken.header, ← taken.size]
    have part : t.bytes HEADER ⊆ covered HEADER zs := taken.covered ▸ Set.subset_union_right
    have positive : 0 < t.size := taken.size ▸ Nat.succ_pos _
    have within := within_of_bytes (lo_lt_hi positive) (part.trans (all ▸ Set.subset_union_left))
    have room := units_small small
    have nonzero : ¬t.lo + HEADER = 0 := Nat.succ_ne_zero _
    refine ⟨ys, Or.inr taken.list, ?_, ?_, ?_⟩
    · rw [if_neg nonzero]
      refine ⟨List.forall_mem_cons.mpr ⟨?_, live'.within⟩,
        List.forall_mem_cons.mpr ⟨?_, live'.large⟩,
        List.pairwise_cons.mpr ⟨fun a mem => ?_, live'.apart⟩⟩
      · rw [this_]
        exact ⟨Nat.add_le_add_right within.1 _, within.2⟩
      · rw [this_, Extent.hi, taken.size]
        change t.lo + HEADER + n ≤ _
        omega
      · rw [this_]
        exact (apart a mem).symm.mono_left part
    · rw [if_neg nonzero]
      refine List.forall_mem_cons.mpr
        ⟨?_, fun a mem => (apart a mem).mono_right (taken.covered ▸ Set.subset_union_left)⟩
      rw [this_]
      exact taken.disjoint
    · rw [if_neg nonzero, List.map_cons, covered_cons, unmoved, this_, ← Set.union_assoc,
        taken.covered]
      exact all

/-- What `free` needs to know of a live block. -/
theorem Tiled.free_meets {E : Stop → Prop} {p n fuel : ℕ} (fresh : Fresh os valid limit base start)
    (valid_ : valid s.os) (tiled : Tiled s base start (limit s.os) xs live) (mem : (p, n) ∈ live)
    (enough : E .diverges ∨ xs.length + 1 < fuel) :
    Meets (free os fuel p) s E fun _ s' => valid s'.os ∧
      ∃ ys, Tiled s' base start (limit s'.os) ys (live.erase (p, n)) := by
  have image := fresh.image s.os valid_
  have within := tiled.blocks.within (p, n) mem
  have inside := tiled.blocks.lo_mem mem
  have large := tiled.blocks.large (p, n) mem
  have positive : 0 < (block s p).size := by
    have := inside.2
    simp only [Extent.hi, HEADER] at this
    omega
  have list : FreeList s base start (limit s.os) xs := by
    refine tiled.ready.resolve_left fun none => ?_
    rw [none.2.2] at mem
    cases mem
  have pointer : plus (block s p).lo 1 = p := by
    have top := image.limit_le
    simp only [plus, block, Vm.KERNBASE, HEADER] at *
    omega
  have perm := List.perm_cons_erase mem
  have apart := (perm.pairwise_iff fun h => Disjoint.symm h).mp tiled.blocks.apart
  rcases List.pairwise_cons.mp apart with ⟨others, apart'⟩
  have safe : E .fault ∨ ∀ a, a = base ∨ start ≤ a ∧ a + HEADER ≤ limit s.os →
      Accessible os s.os a :=
    Or.inr fun a place => fresh.mapped s.os a valid_ place
  have meets := list.free_meets (b := block s p) image positive
    ⟨Nat.le_sub_of_add_le within.1, within.2⟩ (tiled.disjoint (p, n) mem) rfl safe enough
  rw [pointer] at meets
  refine meets.mono (fun _ stop => stop) ?_
  rintro _ s' ⟨ys, list', covers, _, _, os_eq, frame⟩
  have old : ∀ a ∈ live.erase (p, n), a ∈ live := fun a mem => List.mem_of_mem_erase mem
  have same : ∀ a ∈ live.erase (p, n), block s' a.1 = block s a.1 := by
    intro a rest
    have inside' := tiled.blocks.lo_mem (old a rest)
    refine block_congr (frame _ (Nat.le_sub_of_add_le (tiled.blocks.within a (old a rest)).1)
      (fun isFree => ?_) fun here => ?_)
    · exact Set.disjoint_left.mp (tiled.disjoint a (old a rest)) inside' isFree
    · exact Set.disjoint_left.mp (others a rest) inside (here ▸ inside')
  have blocks : Live s start (limit s.os) (live.erase (p, n)) :=
    ⟨fun a rest => tiled.blocks.within a (old a rest), fun a rest =>
      tiled.blocks.large a (old a rest), apart'⟩
  rw [os_eq]
  refine ⟨valid_, ys, Or.inr list', blocks.congr le_rfl same, fun a rest => ?_, ?_⟩
  · rw [same a rest, covers, Set.disjoint_union_right]
    exact ⟨tiled.disjoint a (old a rest), (others a rest).symm⟩
  · have all : covered HEADER (live.map fun a => block s a.1) =
        (block s p).bytes HEADER ∪ covered HEADER
          ((live.erase (p, n)).map fun a => block s a.1) := by
      rw [← covered_cons]
      exact covered_perm (perm.map _)
    rw [covers, List.map_congr_left same, Set.union_assoc, ← all]
    exact tiled.tiles

/-! ## Runs -/

/-- The state before the first call: the kernel has given no memory yet. -/
def Allocator.init (header : ℕ → Header) (k : σ) : Allocator σ := ⟨⟨header, 0, k⟩, []⟩

/-- Every call keeps the memory tiled. -/
theorem Tiled.step {m m' : Allocator σ} (fresh : Fresh os valid limit base start)
    (step : AllocStep os base m m') (valid_ : valid m.heap.os)
    (tiled : Tiled m.heap base start (limit m.heap.os) xs m.live) :
    valid m'.heap.os ∧ ∃ ys, Tiled m'.heap base start (limit m'.heap.os) ys m'.live := by
  cases step with
  | malloc small returned =>
      have ready : Ready m.heap base start (limit m.heap.os) xs :=
        tiled.ready.imp_left fun none => ⟨none.1, none.2.1⟩
      have done := (malloc_meets (E := fun _ => True) fresh valid_ ready (units_small small).1
        (Or.inl trivial)).of_ok returned
      exact ⟨done.valid, tiled.malloc fresh.image valid_ small done⟩
  | free live returned =>
      exact (tiled.free_meets (E := fun _ => True) fresh valid_ live (Or.inl trivial)).of_ok
        returned

theorem Tiled.run {m m' : Allocator σ} (fresh : Fresh os valid limit base start)
    (run : ReflTransGen (AllocStep os base) m m') (valid_ : valid m.heap.os)
    (tiled : Tiled m.heap base start (limit m.heap.os) xs m.live) :
    valid m'.heap.os ∧ ∃ ys, Tiled m'.heap base start (limit m'.heap.os) ys m'.live := by
  refine Runs.invariant_of_run
    (I := fun m => valid m.heap.os ∧ ∃ ys, Tiled m.heap base start (limit m.heap.os) ys m.live)
    ?_ run ⟨valid_, xs, tiled⟩
  rintro m m' step ⟨valid_, ys, tiled⟩
  exact tiled.step fresh step valid_

/-- After any sequence of calls the free list is a ring in the order of the addresses, whose blocks
are apart from one another, the free blocks and the live ones tile the memory that the kernel has
given, each live block with the bytes asked for, and every further call returns. -/
theorem blocks_tile {k : σ} {m : Allocator σ} (fresh : Fresh os valid limit base start)
    (valid_ : valid k) (none : limit k = start) (header : ℕ → Header)
    (run : ReflTransGen (AllocStep os base) (.init header k) m) :
    (∃ xs, Tiled m.heap base start (limit m.heap.os) xs m.live) ∧
    (∀ nbytes : Word, nbytes.toNat < 2 ^ 31 - 16 → ∃ enough, ∀ fuel ≥ enough, ∃ p heap,
      malloc os base fuel nbytes m.heap = .ok (p, heap) ∧ (p ≠ 0 →
        Set.Ico p (p + nbytes.toNat) ⊆ Set.Ico start (limit heap.os) ∧
        ∀ a ∈ m.live, Disjoint (Set.Ico p (p + nbytes.toNat)) (Set.Ico a.1 (a.1 + a.2)))) ∧
    ∀ p n, (p, n) ∈ m.live → ∃ enough, ∀ fuel ≥ enough, ∃ heap, free os fuel p m.heap =
      .ok ((), heap) := by
  have init : Tiled (Allocator.init header k).heap base start (limit k) []
      (Allocator.init header k).live := by
    refine ⟨Or.inl ⟨rfl, rfl, rfl⟩, ⟨nofun, nofun, List.Pairwise.nil⟩, nofun, ?_⟩
    rw [none, Set.Ico_self]
    exact (congrArg₂ _ covered_nil covered_nil).trans (Set.union_empty _)
  rcases init.run fresh run valid_ with ⟨valid', xs, tiled⟩
  refine ⟨⟨xs, tiled⟩, fun nbytes small => ⟨2 * xs.length + 5, fun fuel enough => ?_⟩,
    fun p n mem => ⟨xs.length + 2, fun fuel enough => ?_⟩⟩
  · have ready : Ready m.heap base start (limit m.heap.os) xs :=
      tiled.ready.imp_left fun none => ⟨none.1, none.2.1⟩
    rcases (malloc_meets (E := fun _ => False) fresh valid' ready (units_small small).1
      (Or.inr enough)).returns
      fun _ impossible => impossible with ⟨p, heap, returned, done⟩
    refine ⟨p, heap, returned, fun nonzero => ?_⟩
    rcases tiled.malloc fresh.image valid' small done with ⟨ys, tiled'⟩
    rw [if_neg nonzero] at tiled'
    have payload : ∀ a ∈ (p, nbytes.toNat) :: m.live,
        Set.Ico a.1 (a.1 + a.2) ⊆ (block heap a.1).bytes HEADER := by
      intro a mem
      exact Set.Ico_subset_Ico (Nat.sub_le _ _) (tiled'.blocks.large a mem)
    have this_ := payload _ List.mem_cons_self
    have within := tiled'.blocks.within _ List.mem_cons_self
    refine ⟨this_.trans (Set.Ico_subset_Ico (Nat.le_sub_of_add_le within.1) within.2),
      fun a mem => ?_⟩
    exact ((List.pairwise_cons.mp tiled'.blocks.apart).1 a mem).mono this_
      (payload a (List.mem_cons_of_mem _ mem))
  · rcases (tiled.free_meets (E := fun _ => False) fresh valid' mem (Or.inr enough)).returns
      fun _ impossible => impossible with ⟨_, heap, returned, _⟩
    exact ⟨heap, returned⟩

/-- A kernel that gives memory until the process reaches `KERNBASE`. -/
def bump : Os ℕ where
  sbrk n k := if k + n ≤ Vm.KERNBASE then some (k, k + n) else some (MINUS_ONE, k)
  mapped k a := a + 4 ≤ k

/-- A kernel that gives the next addresses gives fresh memory. -/
theorem fresh_bump : Fresh bump (fun k => 0x3000 ≤ k ∧ k ≤ Vm.KERNBASE) id 0x800 0x3000 where
  image := fun k both => ⟨by decide, by decide, both.1, both.2⟩
  sbrk := by
    intro k n both positive small
    by_cases room : k + n ≤ Vm.KERNBASE
    · exact ⟨k, k + n, if_pos room, ⟨both.1.trans (Nat.le_add_right k n), room⟩, Or.inr ⟨rfl, rfl⟩⟩
    · exact ⟨MINUS_ONE, k, if_neg room, both, Or.inl ⟨rfl, rfl⟩⟩
  mapped := by
    intro k a both place
    simp only [Accessible, bump, decide_eq_true_eq, HEADER, id] at *
    omega

/-- Two blocks are allocated, and the first is freed. -/
theorem blocks_tile_two :
    ∃ m, ReflTransGen (AllocStep bump 0x800) (.init (fun _ => ⟨0, 0⟩) 0x3000) m ∧
    m.live = [(0xafd0, 20)] ∧ ∃ xs, Tiled m.heap 0x800 0x3000 (id m.heap.os) xs m.live := by
  have outcome : ((malloc bump 0x800 20 10 ⟨fun _ => ⟨0, 0⟩, 0, 0x3000⟩).toOption.map fun r => (r.1,
      ((malloc bump 0x800 20 20 r.2).toOption.map fun r' => (r'.1,
        ((free bump 20 r.1 r'.2).toOption.map fun _ => 0))))) =
        some (0xaff0, some (0xafd0, some 0)) := by decide +kernel
  rcases ok_of_evaluated outcome with ⟨⟨p, heap₁⟩, first, value⟩
  rw [Prod.mk.injEq] at value
  rcases ok_of_evaluated value.2 with ⟨⟨p', heap₂⟩, second, value'⟩
  rw [Prod.mk.injEq] at value'
  rcases ok_of_evaluated value'.2 with ⟨⟨_, heap₃⟩, third, _⟩
  obtain rfl : p = 0xaff0 := value.1
  obtain rfl : p' = 0xafd0 := value'.1
  have live : (0xaff0, 10) ∈ [(0xafd0, 20), (0xaff0, 10)] := by decide
  have step₁ : AllocStep bump 0x800 (.init (fun _ => ⟨0, 0⟩) 0x3000) ⟨heap₁, [(0xaff0, 10)]⟩ :=
    @AllocStep.malloc ℕ bump 0x800 (.init (fun _ => ⟨0, 0⟩) 0x3000) 10 20 0xaff0 heap₁
      (by decide) first
  have step₂ : AllocStep bump 0x800 ⟨heap₁, [(0xaff0, 10)]⟩ ⟨heap₂, [(0xafd0, 20), (0xaff0, 10)]⟩ :=
    @AllocStep.malloc ℕ bump 0x800 ⟨heap₁, [(0xaff0, 10)]⟩ 20 20 0xafd0 heap₂ (by decide) second
  have step₃ : AllocStep bump 0x800 ⟨heap₂, [(0xafd0, 20), (0xaff0, 10)]⟩ ⟨heap₃, [(0xafd0, 20)]⟩ :=
    @AllocStep.free ℕ bump 0x800 ⟨heap₂, [(0xafd0, 20), (0xaff0, 10)]⟩ 0xaff0 10 20 heap₃ live third
  have run := ((ReflTransGen.single step₁).tail step₂).tail step₃
  exact ⟨_, run, rfl, (blocks_tile fresh_bump (by decide) rfl _ run).1⟩

end Xv6.User
