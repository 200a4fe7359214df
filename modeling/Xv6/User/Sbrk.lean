import Xv6.User.Malloc

/-!
# `malloc` on the kernel's `sbrk`

`sys_sbrk` and `growproc` of part2, with what `allocuvm` and `deallocuvm` return and which pages
they leave mapped. The number of units that `malloc` computes, and the number of bytes that it
passes on as an `int`, can both be wrong for large requests; they are right up to `2 ^ 31 - 16`
bytes.
-/

namespace Xv6.User

open Prog Extents

/-- The size of a process, and the end of its mapped pages. -/
structure Process where
  sz : ℕ
  top : ℕ

/-- The pages that the loop of `allocuvm` goes through. -/
def pages (oldsz newsz : ℕ) : List ℕ :=
  (List.range ((Vm.PGROUNDUP newsz - Vm.PGROUNDUP oldsz) / Vm.PGSIZE)).map fun i =>
    Vm.PGROUNDUP oldsz + i * Vm.PGSIZE

section Kernel

-- For which pages `kalloc` and `mappages` succeed.
variable (available : ℕ → Bool)

def allocuvm (k : Process) (oldsz newsz : ℕ) : ℕ × Process :=
  if Vm.KERNBASE ≤ newsz then (0, k)
  else if newsz < oldsz then (oldsz, k)
  else if (pages oldsz newsz).all available then
    (newsz, { k with top := max k.top (Vm.PGROUNDUP newsz) })
  else (0, k) -- the pages that have been allocated are given back

def deallocuvm (k : Process) (oldsz newsz : ℕ) : ℕ × Process :=
  if oldsz ≤ newsz then (oldsz, k) else (newsz, { k with top := min k.top (Vm.PGROUNDUP newsz) })

/-- `growproc`, with the bits of its argument: it fails or succeeds. -/
def growproc (n : ℕ) (k : Process) : Bool × Process :=
  let newsz := (k.sz + n) % 2 ^ 32
  let r := if 0 < n ∧ n < 2 ^ 31 then allocuvm available k k.sz newsz
    else if 2 ^ 31 ≤ n then deallocuvm k k.sz newsz
    else (k.sz, k)
  if n ≠ 0 ∧ r.1 = 0 then (false, r.2) else (true, { r.2 with sz := r.1 })

def sys_sbrk (n : ℕ) (k : Process) : ℕ × Process :=
  let addr := k.sz
  let r := growproc available n k
  if r.1 then (addr, r.2) else (MINUS_ONE, r.2)

/-- The process goes on after a system call if its text, data and stack, below `image`, are still
mapped. -/
def kernel (image : ℕ) : Os Process where
  sbrk n k :=
    let r := sys_sbrk available n k
    if image ≤ r.2.top then some r else none
  mapped k a := a + 4 ≤ k.top

end Kernel

/-- A process whose image ends at `image`. -/
structure Process.Valid (image : ℕ) (k : Process) : Prop where
  image_le : image ≤ k.sz
  lt_kernbase : k.sz < Vm.KERNBASE
  mapped : k.top = Vm.PGROUNDUP k.sz

theorem le_pgroundup {a : ℕ} (small : a ≤ Vm.KERNBASE) :
    a ≤ Vm.PGROUNDUP a ∧ Vm.PGROUNDUP a < a + Vm.PGSIZE := by
  simp only [Vm.PGROUNDUP, Vm.PGSIZE, Vm.KERNBASE] at *
  omega

variable {available : ℕ → Bool} {base start : ℕ} {k : Process}

/-- For a positive number of bytes the kernel keeps its promise. -/
theorem fresh_kernel (positive : 0 < base) (below : base + HEADER ≤ start) :
    Fresh (kernel available start) (Process.Valid start) Process.sz base start where
  image := fun k valid => ⟨positive, below, valid.image_le, valid.lt_kernbase.le⟩
  sbrk := by
    intro k n valid some small
    rcases valid with ⟨image, bounds, mapped⟩
    have rounded := le_pgroundup bounds.le
    have newsz : (k.sz + n) % 2 ^ 32 = k.sz + n := by
      simp only [Vm.KERNBASE] at bounds
      omega
    have alive : start ≤ k.top := by omega
    have notLess : ¬k.sz + n < k.sz := Nat.not_lt.mpr (Nat.le_add_right _ _)
    have called : growproc available n k =
        if (allocuvm available k k.sz (k.sz + n)).1 = 0 then
          (false, (allocuvm available k k.sz (k.sz + n)).2)
        else (true, { (allocuvm available k k.sz (k.sz + n)).2 with sz :=
          (allocuvm available k k.sz (k.sz + n)).1 }) := by
      simp only [growproc, newsz, if_pos (And.intro some small), some.ne', ne_eq, not_false_eq_true,
        true_and]
    have failed : allocuvm available k k.sz (k.sz + n) = (0, k) →
        (kernel available start).sbrk n k = Option.some (MINUS_ONE, k) := by
      intro returned
      simp only [kernel, sys_sbrk, called, returned, ↓reduceIte, Bool.false_eq_true, if_pos alive]
    by_cases high : Vm.KERNBASE ≤ k.sz + n
    · exact ⟨MINUS_ONE, k, failed (if_pos high), ⟨image, bounds, mapped⟩, Or.inl ⟨rfl, rfl⟩⟩
    · by_cases enough : (pages k.sz (k.sz + n)).all available = true
      · have rounded' := le_pgroundup (Nat.not_le.mp high).le
        have returned : allocuvm available k k.sz (k.sz + n) =
            (k.sz + n, { k with top := Vm.PGROUNDUP (k.sz + n) }) := by
          have more : k.top ≤ Vm.PGROUNDUP (k.sz + n) := by
            rw [mapped, Vm.PGROUNDUP, Vm.PGROUNDUP]
            simp only [Vm.PGSIZE, Vm.KERNBASE] at *
            omega
          rw [allocuvm, if_neg high, if_neg notLess, if_pos enough, max_eq_right more]
        refine ⟨k.sz, ⟨k.sz + n, Vm.PGROUNDUP (k.sz + n)⟩, ?_,
          ⟨image.trans (Nat.le_add_right _ _), Nat.not_le.mp high, rfl⟩, Or.inr ⟨rfl, rfl⟩⟩
        have nonzero : ¬k.sz + n = 0 := by omega
        have alive' : start ≤ Vm.PGROUNDUP (k.sz + n) := by omega
        simp only [kernel, sys_sbrk, called, returned, if_neg nonzero, ↓reduceIte, if_pos alive']
      · refine ⟨MINUS_ONE, k, failed ?_, ⟨image, bounds, mapped⟩, Or.inl ⟨rfl, rfl⟩⟩
        rw [allocuvm, if_neg high, if_neg notLess, if_neg enough]
  mapped := by
    intro k a valid place
    have rounded := le_pgroundup valid.lt_kernbase.le
    have image := valid.image_le
    have mapped := valid.mapped
    simp only [Accessible, kernel, decide_eq_true_eq, HEADER] at *
    omega

/-! ## Requests that are negative numbers -/

section Large

variable {s : Heap Process} {xs : List Extent} {nunits inner fuel : ℕ}

/-- A request that `sbrk` takes for a negative number, or for 0, succeeds, though the process gets
nothing. -/
theorem sbrk_large {n r : ℕ} {k' : Process} (below : base + HEADER + Vm.PGSIZE ≤ start)
    (valid : k.Valid start) (large : n = 0 ∨ 2 ^ 31 ≤ n)
    (returned : (kernel available start).sbrk n k = some (r, k')) :
    r = k.sz ∧ k'.sz ≤ k.sz ∧ (k.sz + n) % 2 ^ 32 ≠ base := by
  rcases valid with ⟨image, bounds, mapped⟩
  simp only [HEADER, Vm.PGSIZE, Vm.KERNBASE] at below bounds
  have positive : ¬k.sz = 0 := by omega
  obtain ⟨newsz, size⟩ : ∃ newsz, (k.sz + n) % 2 ^ 32 = newsz := ⟨_, rfl⟩
  have unchanged : growproc available n k = (true, k) → r = k.sz ∧ k'.sz ≤ k.sz := by
    intro called
    simp only [kernel, sys_sbrk, called, ↓reduceIte, Option.ite_none_right_eq_some,
      Option.some.injEq, Prod.mk.injEq] at returned
    rcases returned with ⟨_, rfl, rfl⟩
    exact ⟨rfl, le_rfl⟩
  rw [size]
  rcases large with rfl | large
  · have same : newsz = k.sz := by omega
    rcases unchanged (by simp [growproc]) with ⟨start_, end_⟩
    exact ⟨start_, end_, by omega⟩
  · have negative : ¬(0 < n ∧ n < 2 ^ 31) := by omega
    have nonzero : n ≠ 0 := by omega
    have called : growproc available n k = if (deallocuvm k k.sz newsz).1 = 0 then
      (false, (deallocuvm k k.sz newsz).2)
        else (true, { (deallocuvm k k.sz newsz).2 with sz := (deallocuvm k k.sz newsz).1 }) := by
      simp only [growproc, size, if_neg negative, if_pos large, nonzero, ne_eq, not_false_eq_true,
        true_and]
    by_cases up : k.sz ≤ newsz
    · have same : deallocuvm k k.sz newsz = (k.sz, k) := if_pos up
      rcases unchanged (by rw [called, same, if_neg positive]) with ⟨start_, end_⟩
      exact ⟨start_, end_, by omega⟩
    · have shrunk : deallocuvm k k.sz newsz =
          (newsz, { k with top := min k.top (Vm.PGROUNDUP newsz) }) := if_neg up
      rw [shrunk] at called
      by_cases zero : newsz = 0
      · have none : Vm.PGROUNDUP newsz = 0 := by
          rw [zero]
          rfl
        have dead : ¬start ≤ min k.top (Vm.PGROUNDUP newsz) := by
          rw [none]
          omega
        rw [if_pos zero] at called
        simp only [kernel, sys_sbrk, called, Bool.false_eq_true, ↓reduceIte, if_neg dead,
          reduceCtorEq] at returned
      · rw [if_neg zero] at called
        simp only [kernel, sys_sbrk, called, ↓reduceIte, Option.ite_none_right_eq_some,
          Option.some.injEq, Prod.mk.injEq] at returned
        rcases returned with ⟨alive, rfl, rfl⟩
        have rounded := le_pgroundup (a := newsz) (by simp only [Vm.KERNBASE]; omega)
        simp only [Vm.PGSIZE] at rounded
        exact ⟨rfl, (Nat.not_le.mp up).le, by omega⟩

theorem meets_sbrk_of {σ : Type} {os : Os σ} {s : Heap σ} {n : ℕ} {E : Stop → Prop}
    {Q : ℕ → Heap σ → Prop} (stop : E .fault)
    (post : ∀ r k', os.sbrk n s.os = some (r, k') → Q r { s with os := k' }) :
    Meets (sbrk os n) s E Q := by
  cases outcome : os.sbrk n s.os with
  | none =>
      rw [Meets, sbrk, outcome]
      exact stop
  | some r => exact meets_sbrk outcome (post r.1 r.2 outcome)

/-- `morecore` then puts a block into the list that begins where the memory of the process ends. -/
theorem morecore_large (positive : 0 < base) (below : base + HEADER + Vm.PGSIZE ≤ start)
    (valid : s.os.Valid start) (list : FreeList s base start s.os.sz xs) (low : 2 ^ 28 ≤ nunits)
    (high : nunits ≤ 2 ^ 29) :
    Meets (morecore (kernel available start) inner nunits) s (fun _ => True) fun p s' => p ≠ 0 ∧
      p = s'.freep ∧
      s'.os.sz ≤ s.os.sz ∧ ∃ ys front l, ⟨base, 0⟩ :: ys = front ++ [l] ∧
        Links s'.header (⟨base, 0⟩ :: ys) base ∧
        Apart HEADER (⟨base, 0⟩ :: ys) ∧ (∃ y ∈ ⟨base, 0⟩ :: ys, s'.freep = y.lo) ∧
          nunits ≤ l.size ∧
        l.lo + HEADER * (l.size - nunits) = s.os.sz ∧ ∀ x ∈ front, x.size < nunits := by
  have image : Image base start s.os.sz :=
    ⟨positive, (Nat.le_add_right _ _).trans below, valid.image_le, valid.lt_kernbase.le⟩
  have bounds := valid.lt_kernbase
  have image_le := valid.image_le
  simp only [Vm.KERNBASE] at bounds
  have enough : ¬nunits < 4096 := by omega
  have asked : nunits * HEADER % 2 ^ 32 = 0 ∨ 2 ^ 31 ≤ nunits * HEADER % 2 ^ 32 := by
    simp only [HEADER]
    omega
  rw [morecore, if_neg enough]
  refine meets_bind (meets_sbrk_of trivial fun r k' returned => ?_)
  rcases sbrk_large below valid asked returned with ⟨rfl, smaller, notBase⟩
  have nowhere : ¬s.os.sz = MINUS_ONE := by
    simp only [MINUS_ONE]
    omega
  rw [if_neg nowhere]
  refine meets_bind (meets_setSize (Or.inl trivial) ?_)
  obtain ⟨s₁, current⟩ : ∃ s₁ : Heap Process, ({ s with
      os := k',
      header := Function.update s.header s.os.sz { s.header s.os.sz with size := nunits } } :
      Heap Process) = s₁ := ⟨_, rfl⟩
  have size : (s₁.header s.os.sz).size = nunits := by
    rw [← current]
    change (Function.update s.header s.os.sz _ s.os.sz).size = nunits
    rw [Function.update_self]
  have os_eq : s₁.os = k' := (congrArg Heap.os current).symm
  have header : ∀ a < s.os.sz, s₁.header a = s.header a := by
    intro a less
    rw [← current]
    exact Function.update_of_ne less.ne _ _
  have list₁ : FreeList s₁ base start s.os.sz xs :=
    list.grow image le_rfl header (congrArg Heap.freep current).symm
  change Meets _ { s with
    os := k',
    header := Function.update s.header s.os.sz { s.header s.os.sz with size := nunits } } _ _
  rw [current]
  have some : 0 < (⟨s.os.sz, nunits⟩ : Extent).size := Nat.lt_of_lt_of_le (by decide) low
  have separate : Disjoint ((⟨s.os.sz, nunits⟩ : Extent).bytes HEADER) (covered HEADER xs) := by
    rw [Set.disjoint_left]
    intro a inNew inOld
    exact absurd inNew.1 (Nat.not_le.mpr (covered_subset list.within inOld).2)
  rcases list₁.exists_place image some image_le separate with
    ⟨before, q, after, ys, ring, above, lower, beyond, place, _, ring'⟩
  have none : after = [] := by
    refine List.eq_nil_iff_forall_not_mem.mpr fun y mem => ?_
    have member : y ∈ ⟨base, 0⟩ :: xs := ring ▸ List.mem_append_right _ (List.mem_cons_of_mem q mem)
    have gap := (lo_lt_hi (b := ⟨s.os.sz, nunits⟩) some).trans_le (beyond y mem)
    rcases List.mem_cons.mp member with rfl | member
    · change s.os.sz < base at gap
      simp only [HEADER] at below
      omega
    · have := (list.within y member).2
      have := y.lo_le_hi HEADER
      change s.os.sz < y.lo at gap
      omega
  subst none
  have member : q ∈ before ++ [q] := List.mem_append_right _ List.mem_cons_self
  have front : first (before ++ [q]) 0 = base := by
    rw [← ring]
    rfl
  have links : Links s₁.header (before ++ [q]) (first (before ++ [q]) 0) := by
    rw [front, ← ring]
    exact list₁.links
  have fits := list₁.hi_lt image
  rw [ring] at fits
  have apart : Apart HEADER (before ++ [q]) := ring ▸ list₁.apart
  have sizes : ∀ x ∈ ⟨base, 0⟩ :: xs, x.size < nunits := by
    intro x mem
    rcases List.mem_cons.mp mem with rfl | mem
    · exact some
    · have := (list.within x mem).2
      simp only [Extent.hi, HEADER] at this
      omega
  have notBase' : (⟨s.os.sz, nunits⟩ : Extent).hi HEADER ≠ first (before ++ [q]) 0 := by
    rw [front]
    simp only [Extent.hi, HEADER] at below ⊢
    omega
  have apart' : plus s.os.sz nunits ≠ first (before ++ [q]) 0 := by
    rw [front, plus, Nat.mul_comm, ← Nat.add_mod_mod]
    exact notBase
  have joins := links_joined links fits size high notBase' (iff_of_false apart' notBase')
    (lo_lt_of_apart apart) lower (List.forall_mem_nil _)
  rw [front, ring'] at joins
  have lastBlock : ∃ init l, before ++ join HEADER q [⟨s.os.sz, nunits⟩] = init ++ [l] ∧
    nunits ≤ l.size ∧
      l.lo + HEADER * (l.size - nunits) = s.os.sz ∧ ∀ x ∈ init, x.size < nunits := by
    by_cases touch : q.hi HEADER = s.os.sz
    · refine ⟨before, ⟨q.lo, q.size + nunits⟩, ?_, Nat.le_add_left _ _, ?_, fun x mem => ?_⟩
      · rw [join]
        exact congrArg (before ++ ·) (if_pos touch)
      · rw [Nat.add_sub_cancel]
        exact touch
      · exact sizes x (ring ▸ List.mem_append_left _ mem)
    · refine ⟨before ++ [q], ⟨s.os.sz, nunits⟩, ?_, le_rfl, ?_, fun x mem => sizes x (ring ▸ mem)⟩
      · rw [join, List.append_assoc]
        exact congrArg (before ++ ·) (if_neg touch)
      · rw [Nat.sub_self]
        rfl
  rcases lastBlock with ⟨init, l, ending, large, place', small⟩
  have found : ∀ Q : ℕ → Heap Process → Prop, Q q.lo s₁ →
      Meets (search (kernel available start) s.os.sz inner s₁.freep) s₁ (fun _ => True) Q := by
    intro Q post
    refine search_meets links (lo_lt_of_apart apart) lower (List.forall_mem_nil _) ?_
      (Or.inl trivial) (Or.inl trivial) post
    rw [← ring]
    exact list₁.roving
  have here : (plus s.os.sz 1 + (2 ^ 32 - HEADER)) % 2 ^ 32 = s.os.sz := by
    simp only [plus, HEADER]
    omega
  have behind : (s₁.header q.lo).ptr ≠ s.os.sz := by
    rw [links.header_eq]
    change first (before ++ [q]) 0 ≠ s.os.sz
    rw [front]
    simp only [HEADER] at below
    omega
  refine meets_bind (User.free_meets here found lower.ne behind (Or.inl trivial)
    (meets_bind (meets_get (meets_pure ?_))))
  refine ⟨?_, rfl, os_eq ▸ smaller, ys, init, l, ring'.symm.trans ending, joins, ?_, ?_, large,
    place', small⟩
  · rcases list₁.roving with ⟨y, mem, roving⟩
    change q.lo ≠ 0
    rcases place with same | old
    · rw [same]
      exact positive.ne'
    · have := (list.within q old).1
      simp only [HEADER] at below
      omega
  · rw [← ring']
    exact apart.insert above (List.forall_mem_nil _)
  · rcases join_eq (u := HEADER) q (join HEADER ⟨s.os.sz, nunits⟩ []) with ⟨n, rest, same, _⟩
    refine ⟨⟨q.lo, n⟩, ?_, rfl⟩
    rw [← ring', same]
    exact List.mem_append_right _ List.mem_cons_self

/-- The end of a list. -/
theorem eq_of_ends {α : Type} {front before after : List α} {l x : α}
    (same : front ++ [l] = before ++ x :: after) (other : x ∉ front) : after = [] ∧ x = l := by
  rcases List.eq_nil_or_concat after with rfl | ⟨middle, y, rfl⟩
  · exact ⟨rfl, (List.append_inj' same rfl).2 |> List.singleton_inj.mp |>.symm⟩
  · rw [List.concat_eq_append, ← List.cons_append, ← List.append_assoc] at same
    have fronts := (List.append_inj' same rfl).1
    exact absurd (fronts ▸ List.mem_append_right _ List.mem_cons_self) other

/-- So `malloc` returns a pointer behind that end. -/
theorem malloc_large (positive : 0 < base) (below : base + HEADER + Vm.PGSIZE ≤ start)
    (valid : s.os.Valid start) (ready : Ready s base start s.os.sz xs) {nbytes : Word}
    (low : 2 ^ 28 ≤ units nbytes.toNat) :
    Meets (malloc (kernel available start) base fuel nbytes) s (fun _ => True) fun p s' =>
      p = s.os.sz + HEADER ∧ s'.os.sz ≤ s.os.sz := by
  have image : Image base start s.os.sz :=
    ⟨positive, (Nat.le_add_right _ _).trans below, valid.image_le, valid.lt_kernbase.le⟩
  have bounds := valid.lt_kernbase
  simp only [Vm.KERNBASE] at bounds
  have high : units nbytes.toNat ≤ 2 ^ 29 := by
    have := nbytes.isLt
    simp only [units, HEADER]
    omega
  refine malloc_start image ready (Or.inl trivial) fun s₁ same _ list => ?_
  rw [← same] at valid list bounds ⊢
  rcases list.roving with ⟨y, mem, roving⟩
  have sizes : ∀ x ∈ ⟨base, 0⟩ :: xs, x.size < units nbytes.toNat := by
    intro x mem
    rcases List.mem_cons.mp mem with rfl | mem
    · exact Nat.lt_of_lt_of_le (show 0 < 2 ^ 28 by decide) low
    · have := (list.within x mem).2
      simp only [Extent.hi, HEADER] at this
      omega
  have some : 0 < units nbytes.toNat := Nat.succ_pos _
  rw [roving]
  refine loop_round (k := 0) list.links (lo_lt_of_apart list.apart) mem roving (Or.inl trivial)
    (Or.inl trivial) some
    (fun before v x after _ ring fits _ => ?_) fun _ fuel' p _ => ?_
  · have member : x ∈ ⟨base, 0⟩ :: xs :=
      ring ▸ List.mem_append_right _ (List.mem_cons_of_mem v List.mem_cons_self)
    exact absurd fits (Nat.not_le.mpr (sizes x member))
  · rw [← roving]
    have small : (s₁.header s₁.freep).size < units nbytes.toNat := by
      rw [roving, list.links.size_eq mem]
      exact sizes y mem
    refine loop_asks (k := 0) (Or.inl trivial) (Or.inl trivial) small
      ((morecore_large positive below valid list low high).mono (fun _ stop => stop) ?_)
    rintro p s' ⟨nonzero, rfl, smaller, ys, front, l, ring, links, apart, ⟨z, mem', roving'⟩, large,
      place, others⟩
    rw [roving'] at nonzero ⊢
    refine Or.inr ⟨nonzero, Or.inl trivial, fun fuel _ => ?_⟩
    refine loop_round (k := 0) links (lo_lt_of_apart apart) mem' roving' (Or.inl trivial)
      (Or.inl trivial) some
      (fun before v x after _ ring' fits _ => ?_) fun tooSmall => ?_
    · have ends : front ++ [l] = (before ++ [v]) ++ x :: after := by
        rw [← ring, ring', List.append_assoc]
        rfl
      rcases eq_of_ends ends fun mem => absurd fits (Nat.not_le.mpr (others x mem)) with ⟨rfl, rfl⟩
      have ascending := lo_lt_of_apart apart
      rw [ring'] at links ascending
      refine loop_takes links ascending fits place (by omega) (List.forall_mem_nil _)
        (Or.inl trivial) (Or.inl trivial)
        fun header zs _ _ _ _ => ⟨plus_eq ?_, smaller⟩
      simp only [HEADER]
      omega
    · have member : l ∈ ⟨base, 0⟩ :: ys := ring ▸ List.mem_append_right _ List.mem_cons_self
      rcases List.mem_cons.mp member with rfl | member
      · exact absurd large (Nat.not_le.mpr some)
      · exact absurd large (Nat.not_le.mpr (tooSmall l member))

end Large

/-! ## What `malloc` returns -/

/-- `malloc(nbytes)` returns 0, or a pointer to that many bytes below the size of the process. -/
def Honest (available : ℕ → Bool) (base start : ℕ) (s : Heap Process) (nbytes : Word) : Prop :=
  ∃ fuel p s', malloc (kernel available start) base fuel nbytes s = .ok (p, s') ∧
    (p = 0 ∨ p + nbytes.toNat ≤ s'.os.sz)

/-- The requests for which `malloc` is honest: those of at most `2 ^ 31 - 16` bytes, and those that
it takes for requests of no bytes at all if there is no free block and no memory. -/
def Sound (available : ℕ → Bool) (k : Process) (xs : List Extent) (nbytes : Word) : Prop :=
  nbytes.toNat ≤ 2 ^ 31 - 16 ∨ 2 ^ 32 - 8 < nbytes.toNat ∧ xs = [] ∧
    (growproc available (8 * 4096) k).1 = false

section Honest

variable {s : Heap Process} {xs : List Extent}

theorem sbrk_value {n r : ℕ} {k' : Process}
    (returned : (kernel available start).sbrk n k = some (r, k')) :
    r = if (growproc available n k).1 then k.sz else MINUS_ONE := by
  simp only [kernel, Option.ite_none_right_eq_some, Option.some.injEq] at returned
  exact (congrArg Prod.fst returned.2).symm.trans (apply_ite Prod.fst _ _ _)

variable (positive : 0 < base) (below : base + HEADER + Vm.PGSIZE ≤ start)
  (valid : s.os.Valid start) (ready : Ready s base start s.os.sz xs) {nbytes : Word}
include positive below valid ready

/-- Where `malloc` is honest, the request is sound. -/
theorem Honest.sound (honest : Honest available base start s nbytes) :
    Sound available s.os xs nbytes := by
  have fresh : Fresh (kernel available start) (Process.Valid start) Process.sz base start :=
    fresh_kernel positive ((Nat.le_add_right _ _).trans below)
  have bound := nbytes.isLt
  have sz := valid.lt_kernbase
  simp only [Vm.KERNBASE] at sz
  rcases honest with ⟨fuel, p, s', returned, honest⟩
  by_contra dishonest
  rcases not_or.mp dishonest with ⟨large, wrapped⟩
  by_cases high : nbytes.toNat ≤ 2 ^ 32 - 8
  · have low : 2 ^ 28 ≤ units nbytes.toNat := by
      simp only [units, HEADER]
      omega
    have taken : Meets (malloc (kernel available start) base fuel nbytes) s (fun _ => True)
      fun p s' =>
        p = s.os.sz + HEADER ∧ s'.os.sz ≤ s.os.sz :=
      malloc_large positive below valid ready low
    rcases taken.of_ok returned with ⟨rfl, smaller⟩
    simp only [HEADER] at honest
    omega
  · have one : units nbytes.toNat = 1 := by
      simp only [units, HEADER]
      omega
    have small : HEADER * units nbytes.toNat < 2 ^ 31 := by
      rw [one]
      decide
    have done := (malloc_meets (E := fun _ => True) fresh valid ready small (Or.inl trivial)).of_ok
      returned
    have sz' := done.valid.lt_kernbase
    simp only [Vm.KERNBASE] at sz'
    rcases done.result with ⟨_, _, _, none, failed⟩ | ⟨_, zs, ys, t, rfl, _⟩
    · refine wrapped ⟨Nat.not_le.mp high, ?_, ?_⟩
      · rcases ready with ⟨_, rfl⟩ | list
        · rfl
        · refine List.eq_nil_iff_forall_not_mem.mpr fun x mem => ?_
          have := none x mem
          have := list.positive x mem
          omega
      · have value := sbrk_value failed
        rw [one] at value
        cases got : (growproc available (8 * 4096) s.os).1 with
        | false => rfl
        | true =>
            rw [show request 1 = 8 * 4096 from rfl, got, if_pos rfl] at value
            simp only [MINUS_ONE] at value
            omega
    · simp only [HEADER] at honest
      omega

/-- For a sound request `malloc` is honest. -/
theorem Sound.honest (sound : Sound available s.os xs nbytes) :
    Honest available base start s nbytes := by
  have fresh : Fresh (kernel available start) (Process.Valid start) Process.sz base start :=
    fresh_kernel positive ((Nat.le_add_right _ _).trans below)
  have bound := nbytes.isLt
  have sz := valid.lt_kernbase
  simp only [Vm.KERNBASE] at sz
  have within : covered HEADER xs ⊆ Set.Ico start s.os.sz := by
    rcases ready with ⟨_, rfl⟩ | list
    · rw [covered_nil]
      exact Set.empty_subset _
    · exact covered_subset list.within
  have small : HEADER * units nbytes.toNat < 2 ^ 31 := by
    simp only [units, HEADER]
    rcases sound with enough | ⟨wrapped, _⟩
    · omega
    · omega
  rcases (malloc_meets (E := fun _ => False) fresh valid ready small (Or.inr le_rfl)).returns
    fun _ impossible => impossible with ⟨p, s', returned, done⟩
  refine ⟨_, p, s', returned, ?_⟩
  rcases done.result with ⟨none, _⟩ | ⟨source, zs, ys, t, rfl, taken, covers⟩
  · exact Or.inl none
  · rcases sound with enough | ⟨wrapped, rfl, failed⟩
    · have room : HEADER + nbytes.toNat ≤ HEADER * units nbytes.toNat := by
        simp only [units, HEADER]
        omega
      have part : t.bytes HEADER ⊆ Set.Ico start s'.os.sz := by
        refine (taken.covered ▸ Set.subset_union_right : t.bytes HEADER ⊆ covered HEADER zs).trans
          ?_
        rw [covers]
        exact Set.union_subset (within.trans (Set.Ico_subset_Ico_right done.le))
          (Set.Ico_subset_Ico_left valid.image_le)
      have some : 0 < t.size := taken.size ▸ Nat.succ_pos _
      have top := (within_of_bytes (lo_lt_hi some) part).2
      rw [Extent.hi, taken.size] at top
      exact Or.inr (by omega)
    · have one : units nbytes.toNat = 1 := by
        simp only [units, HEADER]
        omega
      rcases source with ⟨x, mem, _⟩ | got
      · cases mem
      · have value := sbrk_value got
        rw [one, show request 1 = 8 * 4096 from rfl, failed, if_neg Bool.false_ne_true] at value
        simp only [MINUS_ONE] at value
        omega

end Honest

/-- In every heap and process, `malloc` is honest for the sound requests and for no others. -/
theorem honest_iff {s : Heap Process} {xs : List Extent} (positive : 0 < base)
    (below : base + HEADER + Vm.PGSIZE ≤ start) (valid : s.os.Valid start)
    (ready : Ready s base start s.os.sz xs) (nbytes : Word) :
    Honest available base start s nbytes ↔ Sound available s.os xs nbytes :=
  ⟨fun honest => honest.sound positive below valid ready, fun sound =>
    sound.honest positive below valid ready⟩

/-- A process that has not called `malloc` yet. -/
def newHeap : Heap Process := ⟨fun _ => ⟨0, 0⟩, 0, ⟨0x3000, 0x3000⟩⟩

theorem valid_newHeap : newHeap.os.Valid 0x3000 := ⟨le_rfl, by decide, rfl⟩

/-- The first `malloc` of all. -/
theorem honest_iff_newHeap :
    Honest (fun _ => true) 0x800 0x3000 newHeap 100 ↔ Sound (fun _ => true) newHeap.os [] 100 :=
  honest_iff (by decide) (by decide) valid_newHeap (.inl ⟨rfl, rfl⟩) 100

/-- `malloc(4294967295)` returns a pointer, to no bytes at all. -/
theorem not_honest_newHeap : ¬Honest (fun _ => true) 0x800 0x3000 newHeap 0xffffffff ∧
    ∃ s', malloc (kernel (fun _ => true) 0x3000) 0x800 20 0xffffffff newHeap = .ok (0xb000, s') ∧
      s'.os.sz = 0xb000 := by
  refine ⟨fun honest => ?_, ?_⟩
  · rcases honest.sound (by decide) (by decide) valid_newHeap (.inl ⟨rfl, rfl⟩)
      with small | ⟨_, _, failed⟩
    · exact absurd small (by decide)
    · exact absurd failed (by decide +kernel)
  · have outcome : (malloc (kernel (fun _ => true) 0x3000) 0x800 20 0xffffffff newHeap).toOption.map
      (fun r => (r.1, r.2.os.sz)) =
        some (0xb000, 0xb000) := by decide +kernel
    rcases ok_of_evaluated outcome with ⟨⟨p, s'⟩, returned, value⟩
    rw [Prod.mk.injEq] at value
    obtain rfl : p = 0xb000 := value.1
    exact ⟨s', returned, value.2⟩

end Xv6.User
