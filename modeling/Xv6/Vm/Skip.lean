import Xv6.Vm.Entry

/-!
# Missing page tables

The loop of `deallocuvm` with the addresses it computes, which is the same in part2. Where a page
table is missing it sets its counter to one page before the next directory slot. It visits every
page of the range nevertheless, as there is nothing to free below a missing table.
-/

namespace Xv6.Vm

open Prog

variable (L : Link)

/-! ## The loop -/

def PGADDR (d t o : Word) : Word := d <<< 22 ||| t <<< 12 ||| o

/-- `PDX` of an address. -/
def slotOf (a : Word) : Word := a >>> 22 &&& 0x3ff

/-- `PGROUNDUP` of a size. -/
def roundUp (sz : Word) : Word := (sz + 0xfff) &&& ~~~(0xfff : Word)

/-- `if((*pte & PTE_P) != 0)` and what depends on it. -/
def deallocPte (pgtab i : ℕ) : MemProg Unit := do
  let pte := (← get).entry pgtab i
  if present pte then
    if pteAddr pte = 0 then throw .kfree
    kfree L (pteAddr pte)
    modify fun m => m.setEntry pgtab i 0

/-- The body of the loop, which may change the counter. -/
def deallocTurn (pgdir : ℕ) (a : Word) : MemProg Word := do
  match ← walkpgdir pgdir a.toNat false with
  | none => return PGADDR (slotOf a + 1) 0 0 - 0x1000
  | some (pgtab, i) =>
      deallocPte L pgtab i
      return a

/-- At most so many turns of the loop; false if it goes on after them. -/
def deallocFor (pgdir : ℕ) (oldsz : Word) : ℕ → Word → MemProg Bool
  | 0, a => return !decide (a < oldsz)
  | turns + 1, a =>
      if a < oldsz then do
        let a ← deallocTurn L pgdir a
        deallocFor pgdir oldsz turns (a + 0x1000)
      else return true

/-- A page is visited: it is freed if it is present. -/
def visit (pgdir v : ℕ) : MemProg Unit := do
  match ← walkpgdir pgdir (v * PGSIZE) false with
  | none => return ()
  | some (pgtab, i) => deallocPte L pgtab i

/-- `n` pages are visited, one after the other. -/
def visitAll (pgdir : ℕ) : ℕ → ℕ → MemProg Unit
  | 0, _ => return ()
  | n + 1, v => do
      visit L pgdir v
      visitAll pgdir n (v + 1)

variable {L} {m m' : Mem} {q v w n turns : ℕ} {oldsz newsz : Word}

/-! ## Addresses -/

/-- The address of a page. -/
def pageAddr (v : ℕ) : Word := BitVec.ofNat 32 (v * PGSIZE)

theorem toNat_pageAddr (inside : v < 2 ^ 20) : (pageAddr v).toNat = v * PGSIZE := by
  rw [pageAddr, BitVec.toNat_ofNat, Nat.mod_eq_of_lt]
  simp only [PGSIZE]
  omega

theorem pageAddr_add (v : ℕ) : pageAddr v + 0x1000 = pageAddr (v + 1) := by
  rw [pageAddr, pageAddr, Nat.add_mul, BitVec.ofNat_add]
  rfl

theorem pageAddr_lt (inside : v < 2 ^ 20) : pageAddr v < oldsz ↔ v < pages oldsz.toNat := by
  rw [BitVec.lt_def, toNat_pageAddr inside, lt_pages_iff]

/-- The low bits are masked off. -/
theorem and_not_eq (a : Word) : a &&& ~~~(0xfff : Word) = a >>> 12 <<< 12 := by
  have mask : ∀ j : Fin 32, (~~~(0xfff : Word)).getLsbD j = decide (12 ≤ j.val) := by decide
  apply BitVec.eq_of_getLsbD_eq
  intro j inside
  rw [BitVec.getLsbD_and, mask ⟨j, inside⟩, BitVec.getLsbD_shiftLeft, BitVec.getLsbD_ushiftRight]
  by_cases low : j < 12
  · simp [low]
  · simp [low, inside, Nat.not_lt.mp low]

/-- The first page that is not in the size. -/
theorem roundUp_eq (small : newsz.toNat ≤ KERNBASE) :
    roundUp newsz = pageAddr (pages newsz.toNat) := by
  apply BitVec.eq_of_toNat_eq
  have bound : pages newsz.toNat < 2 ^ 20 := by
    simp only [pages, PGSIZE, KERNBASE] at *
    omega
  have sum : (newsz + 0xfff : Word).toNat = newsz.toNat + 4095 := by
    rw [BitVec.toNat_add, Nat.mod_eq_of_lt]
    · rfl
    · change newsz.toNat + 4095 < _
      simp only [KERNBASE] at small
      omega
  rw [toNat_pageAddr bound, roundUp, and_not_eq, BitVec.toNat_shiftLeft,
    BitVec.toNat_ushiftRight, sum,
    Nat.shiftRight_eq_div_pow, Nat.shiftLeft_eq]
  simp only [pages, PGSIZE] at *
  omega

theorem toNat_slotOf (inside : v < 2 ^ 20) : (slotOf (pageAddr v)).toNat = v / NPTENTRIES := by
  rw [slotOf, BitVec.toNat_and, BitVec.toNat_ushiftRight, toNat_pageAddr inside,
    Nat.shiftRight_eq_div_pow]
  refine (Nat.and_two_pow_sub_one_eq_mod _ 10).trans ?_
  simp only [PGSIZE, NPTENTRIES]
  omega

/-- The counter goes to the next slot of the directory. -/
theorem skip_eq (inside : v < 2 ^ 19) :
    PGADDR (slotOf (pageAddr v) + 1) 0 0 - 0x1000 + 0x1000 =
      pageAddr ((v / NPTENTRIES + 1) * NPTENTRIES) := by
  rw [BitVec.sub_add_cancel]
  apply BitVec.eq_of_toNat_eq
  have slot : (slotOf (pageAddr v) + 1 : Word).toNat = v / NPTENTRIES + 1 := by
    rw [BitVec.toNat_add, toNat_slotOf (by omega), Nat.mod_eq_of_lt]
    · rfl
    · change v / NPTENTRIES + 1 < _
      simp only [NPTENTRIES]
      omega
  have shifted : PGADDR (slotOf (pageAddr v) + 1) 0 0 = (slotOf (pageAddr v) + 1) <<< 22 := by
    rw [PGADDR]
    simp
  rw [shifted, BitVec.toNat_shiftLeft, slot, Nat.shiftLeft_eq, toNat_pageAddr]
  all_goals
    simp only [PGSIZE, NPTENTRIES]
    omega

/-! ## Every page is visited -/

/-- A walk finds what the directory says. -/
theorem walkpgdir_eq (inside : v < 2 ^ 20) : walkpgdir q (v * PGSIZE) false m =
    .ok (if present (m.entry q (v / NPTENTRIES)) then
      some (pteAddr (m.entry q (v / NPTENTRIES)), v % NPTENTRIES)
      else none, m) := by
  have walk : Meets (walkpgdir q (v * PGSIZE) false) m (fun _ => False) fun r m' =>
      r = (if present (m.entry q (v / NPTENTRIES)) then
        some (pteAddr (m.entry q (v / NPTENTRIES)), v % NPTENTRIES) else none) ∧ m' = m := by
    refine meets_bind (meets_get ?_)
    rw [PDX_page inside, PTX_page]
    refine meets_ite (fun table => meets_pure ⟨?_, rfl⟩) fun missing => meets_pure ⟨?_, rfl⟩
    · rw [if_pos table]
    · rw [if_neg missing]
  rcases walk.returns (fun _ => id) with ⟨r, m', returned, rfl, rfl⟩
  exact returned

/-- There is nothing to do below a missing table. -/
theorem visit_missing (inside : v < 2 ^ 20)
    (missing : ¬present (m.entry q (v / NPTENTRIES)) = true) :
    visit L q v m = .ok ((), m) := by
  have walked := walkpgdir_eq (q := q) (m := m) inside
  rw [if_neg missing] at walked
  exact bind_of_ok walked

/-- Where tables are missing there is nothing to visit. -/
theorem visitAll_missing (inside : v + n ≤ 2 ^ 20)
    (missing : ∀ x, v ≤ x → x < v + n → ¬present (m.entry q (x / NPTENTRIES)) = true) (w : ℕ) :
    visitAll L q (n + w) v m = visitAll L q w (v + n) m := by
  induction n generalizing v with
  | zero => rw [Nat.zero_add, Nat.add_zero]
  | succ n ih =>
      have first : visit L q v m = .ok ((), m) :=
        visit_missing (by omega) (missing v le_rfl (by omega))
      rw [Nat.add_right_comm, visitAll, bind_of_ok first, ih (by omega) fun x lower upper =>
        missing x (by omega) (by omega),
        Nat.add_right_comm, Nat.add_assoc]

/-- What is done after every page up to `hi` has been visited. -/
def visited {α : Type} (L : Link) (q hi : ℕ) (r : α) (v : ℕ) : MemProg α := do
  visitAll L q (hi - v) v
  return r

theorem bind_congr_run {α β : Type} {x y : MemProg α} {f : α → MemProg β} (same : x m = y m) :
    (x >>= f) m = (y >>= f) m := by
  change (x m).bind _ = (y m).bind _
  rw [same]

section Visited

variable {α : Type} {r : α} {hi : ℕ}

theorem visited_of_le (past : hi ≤ v) : visited L q hi r v m = .ok (r, m) := by
  rw [visited, Nat.sub_eq_zero_of_le past]
  rfl

theorem visited_of_lt (more : v < hi) :
    visited L q hi r v = (do
      visit L q v
      visited L q hi r (v + 1)) := by
  have first : hi - v = (hi - (v + 1)) + 1 := by omega
  rw [visited, first, visitAll, bind_assoc]
  rfl

theorem visited_missing (small : hi ≤ 2 ^ 20) (lower : v ≤ w) (upper : w ≤ hi)
    (missing : ∀ x, v ≤ x → x < w → ¬present (m.entry q (x / NPTENTRIES)) = true) :
    visited L q hi r v m = visited L q hi r w m := by
  refine bind_congr_run ?_
  have split : hi - v = (w - v) + (hi - w) := by omega
  rw [split, visitAll_missing (by omega) fun x lower upper => missing x lower (by omega)]
  rw [Nat.add_sub_cancel' lower]

/-- A loop visits every page up to `hi` if it goes on with the next page where there is a page
table, and with the next slot of the directory where there is none. -/
theorem visited_of_steps (loop : ℕ → ℕ → MemProg α) (small : hi ≤ 2 ^ 19)
    (ended : ∀ turns v m, hi ≤ v → v < 2 ^ 20 → loop turns v m = .ok (r, m))
    (page : ∀ turns v m, v < hi → present (m.entry q (v / NPTENTRIES)) = true →
      loop (turns + 1) v m = (do
        visit L q v
        loop turns (v + 1)) m)
    (skip : ∀ turns v m, v < hi → ¬present (m.entry q (v / NPTENTRIES)) = true →
      loop (turns + 1) v m = loop turns ((v / NPTENTRIES + 1) * NPTENTRIES) m)
    (inside : v ≤ hi) (enough : hi - v ≤ turns) : loop turns v m = visited L q hi r v m := by
  induction turns generalizing v m with
  | zero => rw [ended 0 v m (by omega) (by omega), visited_of_le (by omega)]
  | succ turns ih =>
      rcases Nat.eq_or_lt_of_le inside with last | more
      · rw [ended _ v m (by omega) (by omega), visited_of_le (by omega)]
      · by_cases table : present (m.entry q (v / NPTENTRIES)) = true
        · have rest : loop turns (v + 1) = visited L q hi r (v + 1) :=
            funext fun m₁ => ih more (by omega)
          rw [page turns v m more table, rest, visited_of_lt more]
        · have next : ∀ x, v ≤ x → x < (v / NPTENTRIES + 1) * NPTENTRIES →
              ¬present (m.entry q (x / NPTENTRIES)) = true := by
            intro x lower upper
            have same : x / NPTENTRIES = v / NPTENTRIES := by
              simp only [NPTENTRIES] at *
              omega
            rwa [same]
          have later : v < (v / NPTENTRIES + 1) * NPTENTRIES := by
            simp only [NPTENTRIES]
            omega
          have near : (v / NPTENTRIES + 1) * NPTENTRIES < 2 ^ 20 := by
            simp only [NPTENTRIES]
            omega
          rw [skip turns v m more table]
          rcases Nat.lt_or_ge hi ((v / NPTENTRIES + 1) * NPTENTRIES) with beyond | within
          · rw [ended _ _ m beyond.le near,
              visited_missing (by omega) inside le_rfl fun x lower upper =>
              next x lower (upper.trans beyond), visited_of_le le_rfl]
          · rw [ih within (by omega), visited_missing (by omega) later.le within next]

end Visited

/-- What a visit does where there is a page table. -/
theorem visit_of_table (inside : v < 2 ^ 20) (table : present (m.entry q (v / NPTENTRIES)) = true) :
    visit L q v m = deallocPte L (pteAddr (m.entry q (v / NPTENTRIES))) (v % NPTENTRIES) m := by
  have walked := walkpgdir_eq (q := q) (m := m) inside
  rw [if_pos table] at walked
  exact bind_of_ok walked

/-- The loop visits the pages up to the size. -/
theorem deallocFor_eq (small : oldsz.toNat ≤ KERNBASE) (inside : v ≤ pages oldsz.toNat)
    (enough : pages oldsz.toNat - v ≤ turns) :
    deallocFor L q oldsz turns (pageAddr v) m = visited L q (pages oldsz.toNat) true v m := by
  have bound : pages oldsz.toNat ≤ 2 ^ 19 := by
    simp only [pages, PGSIZE, KERNBASE] at *
    omega
  refine visited_of_steps (fun turns v => deallocFor L q oldsz turns (pageAddr v)) bound
    (fun turns v m past inside => ?_) (fun turns v m more table => ?_)
      (fun turns v m more table => ?_) inside enough
  · have done : ¬pageAddr v < oldsz := by
      rw [pageAddr_lt inside]
      exact Nat.not_lt.mpr past
    cases turns with
    | zero =>
        rw [deallocFor, decide_eq_false done]
        rfl
    | succ turns =>
        rw [deallocFor, if_neg done]
        rfl
  · have inside : v < 2 ^ 20 := by omega
    have walked := walkpgdir_eq (q := q) (m := m) inside
    rw [← toNat_pageAddr inside, if_pos table] at walked
    have turn : deallocTurn L q (pageAddr v) m = (do
        deallocPte L (pteAddr (m.entry q (v / NPTENTRIES))) (v % NPTENTRIES)
        return pageAddr v) m := bind_of_ok walked
    rw [deallocFor, if_pos ((pageAddr_lt inside).mpr more), bind_congr_run turn, bind_assoc]
    simp only [pure_bind]
    rw [pageAddr_add, ← bind_congr_run (visit_of_table inside table)]
  · have inside : v < 2 ^ 20 := by omega
    have walked := walkpgdir_eq (q := q) (m := m) inside
    rw [← toNat_pageAddr inside, if_neg table] at walked
    have turn : deallocTurn L q (pageAddr v) m =
        .ok (PGADDR (slotOf (pageAddr v) + 1) 0 0 - 0x1000, m) := bind_of_ok walked
    rw [deallocFor, if_pos ((pageAddr_lt inside).mpr more), bind_of_ok turn, skip_eq (by omega)]

/-- So does the loop on byte addresses, of which `deallocuvm` is made. -/
theorem deallocLoop_eq {oldsz : ℕ} (small : oldsz ≤ KERNBASE) (inside : v ≤ pages oldsz) :
    deallocLoop L q oldsz (v * PGSIZE) m = visitAll L q (pages oldsz - v) v m := by
  have bound : pages oldsz ≤ 2 ^ 19 := by
    simp only [pages, PGSIZE, KERNBASE] at *
    omega
  refine (visited_of_steps (L := L) (q := q) (r := ())
    (fun _ v => deallocLoop L q oldsz (v * PGSIZE)) bound
    (fun _ v m past inside => ?_) (fun _ v m more table => ?_) (fun _ v m more table => ?_) inside
    le_rfl).trans ?_
  · have done : ¬v * PGSIZE < oldsz :=
      fun more => absurd (lt_pages_iff.mpr more) (Nat.not_lt.mpr past)
    rw [deallocLoop, if_neg done]
    rfl
  · have inside : v < 2 ^ 20 := by omega
    have walked := walkpgdir_eq (q := q) (m := m) inside
    rw [if_pos table] at walked
    rw [deallocLoop, if_pos (lt_pages_iff.mp more), bind_of_ok walked,
      bind_congr_run (visit_of_table inside table),
      deallocPte, bind_assoc, show v * PGSIZE + PGSIZE = (v + 1) * PGSIZE by
      rw [Nat.add_mul, Nat.one_mul]]
    refine congrFun (bind_congr fun m₁ => ?_) m
    by_cases here : present (m₁.entry (pteAddr (m.entry q (v / NPTENTRIES))) (v % NPTENTRIES)) =
      true
    · simp only [if_pos here]
      split_ifs <;> simp only [bind_assoc]
    · simp only [if_neg here, pure_bind]
  · have inside : v < 2 ^ 20 := by omega
    have walked := walkpgdir_eq (q := q) (m := m) inside
    have next : (v * PGSIZE / 2 ^ 22 + 1) * 2 ^ 22 = (v / NPTENTRIES + 1) * NPTENTRIES *
        PGSIZE := by
      simp only [PGSIZE, NPTENTRIES]
      omega
    rw [if_neg table] at walked
    conv_lhs => rw [deallocLoop]
    rw [if_pos (lt_pages_iff.mp more), bind_of_ok walked, next]
  · rw [visited, bind_pure_unit]

/-! ## What the visits do -/

/-- The page tables of directory `q` and the pages that are present from `lo` to `hi` are pages of
their own, and the latter may be freed. -/
structure Apart (L : Link) (m : Mem) (q lo hi : ℕ) : Prop where
  dir : ∀ d < NPDENTRIES, present (m.entry q d) = true → pteAddr (m.entry q d) ≠ q
  tables : ∀ d < NPDENTRIES, ∀ d' < NPDENTRIES, present (m.entry q d) = true →
    present (m.entry q d') = true →
    pteAddr (m.entry q d) = pteAddr (m.entry q d') → d = d'
  pages : ∀ v ∈ Set.Ico lo hi, present (m.pte q v) = true → pteAddr (m.pte q v) ≠ q ∧
    ∀ d < NPDENTRIES, present (m.entry q d) = true → pteAddr (m.pte q v) ≠ pteAddr (m.entry q d)
  once : ∀ v ∈ Set.Ico lo hi, ∀ v' ∈ Set.Ico lo hi, present (m.pte q v) = true →
    present (m.pte q v') = true →
    pteAddr (m.pte q v) = pteAddr (m.pte q v') → v = v'
  legal : ∀ v ∈ Set.Ico lo hi, present (m.pte q v) = true →
    L.kend ≤ pteAddr (m.pte q v) * PGSIZE ∧ pteAddr (m.pte q v) * PGSIZE < PHYSTOP

/-- The pages that are present among the `n` from `v` on. -/
def presentPages (m : Mem) (q v n : ℕ) : List ℕ :=
  ((List.range' v n).filter fun x => present (m.pte q x)).map fun x => pteAddr (m.pte q x)

/-- The `n` pages from `v` on have been visited. -/
structure Visited (q v n : ℕ) (m m' : Mem) : Prop where
  freelist : m'.freelist = (presentPages m q v n).reverse ++ m.freelist
  entry : ∀ d < NPDENTRIES, m'.entry q d = m.entry q d
  pte : ∀ x < 2 ^ 20, m'.pte q x =
    if x ∈ Set.Ico v (v + n) ∧ present (m.pte q x) = true then 0 else m.pte q x

theorem Visited.refl (q v : ℕ) (m : Mem) : Visited q v 0 m m where
  freelist := rfl
  entry := fun _ _ => rfl
  pte := by
    intro x _
    rw [if_neg]
    rintro ⟨inside, _⟩
    rw [Set.mem_Ico] at inside
    omega

theorem presentPages_succ (m : Mem) (q v n : ℕ) : presentPages m q v (n + 1) =
    presentPages m q v n ++ if present (m.pte q (v + n)) = true then [pteAddr (m.pte q (v + n))]
      else [] := by
  rw [presentPages, List.range'_concat, List.filter_append, List.map_append, Nat.one_mul]
  refine congrArg (presentPages m q v n ++ ·) ?_
  rw [List.filter_cons]
  split
  · rfl
  · rfl

theorem entry_release_of_ne {p p' i : ℕ} (other : p' ≠ p) :
    (m.release p).entry p' i = m.entry p' i :=
  Mem.entry_fill_of_ne (m := m) other m.junk

/-- A page that is present is freed, and its entry is cleared. -/
theorem meets_deallocPte {t i p e : ℕ} (word : m.entry t i = e) (here : present e = true)
    (page : pteAddr e = p) (low : L.kend ≤ p * PGSIZE) (high : p * PGSIZE < PHYSTOP) :
    Meets (deallocPte L t i) m (fun _ => False) fun _ m' => m' = (m.release p).setEntry t i 0 := by
  have kernel : 0 < L.kend := (Nat.zero_lt_of_lt L.text).trans_le L.ordered
  have notNull : ¬p = 0 := by
    rintro rfl
    omega
  have allowed : ¬(p * PGSIZE < L.kend ∨ PHYSTOP ≤ p * PGSIZE) := by omega
  refine meets_bind (meets_get ?_)
  rw [word]
  refine meets_ite (fun _ => ?_) fun missing => absurd here missing
  rw [page]
  refine meets_ite (fun null => absurd null notNull) fun _ => ?_
  exact meets_bind (meets_ite (fun outside => absurd outside allowed) fun _ =>
    meets_modify (meets_modify rfl))

/-- One more page is visited. -/
theorem Visited.meets_visit {lo hi : ℕ} (visited : Visited q lo n m m')
    (separate : Apart L m q lo hi) (inside : lo + n < hi) (top : hi ≤ 2 ^ 20) :
    Meets (visit L q (lo + n)) m' (fun _ => False) fun _ m'' => Visited q lo (n + 1) m m'' := by
  have small : lo + n < 2 ^ 20 := inside.trans_le top
  have slot : (lo + n) / NPTENTRIES < NPDENTRIES := by
    simp only [NPTENTRIES, NPDENTRIES]
    omega
  have member : lo + n ∈ Set.Ico lo hi := Set.mem_Ico.mpr ⟨Nat.le_add_right _ _, inside⟩
  have unvisited : m'.pte q (lo + n) = m.pte q (lo + n) := by
    rw [visited.pte _ small, if_neg]
    rintro ⟨mem, _⟩
    rw [Set.mem_Ico] at mem
    omega
  -- Nothing happens if the page is not present.
  have absent : ¬present (m.pte q (lo + n)) = true → Visited q lo (n + 1) m m' := by
    intro missing
    refine ⟨?_, visited.entry, fun x less => ?_⟩
    · rw [presentPages_succ, if_neg missing, List.append_nil, visited.freelist]
    · rw [visited.pte x less]
      refine if_congr (and_congr_left fun here => ?_) rfl rfl
      rw [Set.mem_Ico, Set.mem_Ico]
      have other : x ≠ lo + n := by
        rintro rfl
        exact missing here
      omega
  refine meets_bind (meets_ok (walkpgdir_eq small) ?_)
  rw [visited.entry _ slot]
  by_cases table : present (m.entry q ((lo + n) / NPTENTRIES)) = true
  · rw [if_pos table]
    have read : m'.entry (pteAddr (m.entry q ((lo + n) / NPTENTRIES))) ((lo + n) % NPTENTRIES) =
        m.pte q (lo + n) := by
      rw [← unvisited, Mem.pte, visited.entry _ slot]
      exact (if_pos table).symm
    by_cases here : present (m.pte q (lo + n)) = true
    · have legal := separate.legal _ member here
      have apart := separate.pages _ member here
      have notDir := separate.dir _ slot table
      refine (meets_deallocPte read here rfl legal.1 legal.2).mono (fun _ => id) ?_
      rintro _ m'' rfl
      have dir : ∀ d < NPDENTRIES, ((m'.release (pteAddr (m.pte q (lo + n)))).setEntry
          (pteAddr (m.entry q ((lo + n) / NPTENTRIES))) ((lo + n) % NPTENTRIES) 0).entry q d =
          m.entry q d := by
        intro d less
        rw [Mem.entry_setEntry_of_page notDir.symm, entry_release_of_ne apart.1.symm,
          visited.entry d less]
      refine ⟨?_, dir, fun x less => ?_⟩
      · rw [presentPages_succ, if_pos here, List.reverse_append]
        exact congrArg (pteAddr (m.pte q (lo + n)) :: ·) visited.freelist
      · have slot' : x / NPTENTRIES < NPDENTRIES := by
          simp only [NPTENTRIES, NPDENTRIES]
          omega
        have before := visited.pte x less
        rw [Mem.pte, visited.entry _ slot'] at before
        rw [Mem.pte, dir _ slot']
        by_cases table' : present (m.entry q (x / NPTENTRIES)) = true
        · simp only [if_pos table'] at before ⊢
          have kept := apart.2 _ slot' table'
          by_cases same : x = lo + n
          · subst same
            rw [Mem.entry_setEntry_self (Nat.mod_lt _ (by decide)) (by decide), if_pos]
            exact ⟨Set.mem_Ico.mpr ⟨Nat.le_add_right _ _, by omega⟩, here⟩
          · have unchanged : ((m'.release (pteAddr (m.pte q (lo + n)))).setEntry
                (pteAddr (m.entry q ((lo + n) / NPTENTRIES))) ((lo + n) % NPTENTRIES) 0).entry
                  (pteAddr (m.entry q (x / NPTENTRIES))) (x % NPTENTRIES) =
                m'.entry (pteAddr (m.entry q (x / NPTENTRIES))) (x % NPTENTRIES) := by
              by_cases sameTable : pteAddr (m.entry q (x / NPTENTRIES)) =
                pteAddr (m.entry q ((lo + n) / NPTENTRIES))
              · have sameSlot := separate.tables _ slot' _ slot table' table sameTable
                have index : x % NPTENTRIES ≠ (lo + n) % NPTENTRIES := by
                  intro equal
                  simp only [NPTENTRIES] at *
                  omega
                rw [← sameTable, Mem.entry_setEntry_of_index index, entry_release_of_ne kept.symm]
              · rw [Mem.entry_setEntry_of_page sameTable, entry_release_of_ne kept.symm]
            rw [unchanged, before]
            refine if_congr (and_congr_left fun _ => ?_) rfl rfl
            rw [Set.mem_Ico, Set.mem_Ico]
            omega
        · simp only [if_neg table'] at before ⊢
          have zero : m.pte q x = 0 := if_neg table'
          rw [zero, ite_self]
    · refine (?_ : Meets (deallocPte L _ _) m' _ _)
      refine meets_bind (meets_get ?_)
      rw [read]
      exact meets_ite (fun present' => absurd present' here) fun missing =>
        meets_pure (absent missing)
  · rw [if_neg table]
    refine meets_pure (absent ?_)
    have zero : m.pte q (lo + n) = 0 := if_neg table
    rw [zero]
    exact Bool.false_ne_true

/-- Every page of the range is visited in turn. -/
theorem Visited.meets_visitAll {lo hi : ℕ} (visited : Visited q lo n m m')
    (separate : Apart L m q lo hi) (inside : lo + n + w ≤ hi) (top : hi ≤ 2 ^ 20) :
    Meets (visitAll L q w (lo + n)) m' (fun _ => False) fun _ m'' =>
      Visited q lo (n + w) m m'' := by
  induction w generalizing n m' with
  | zero => exact meets_pure visited
  | succ w ih =>
      refine (visited.meets_visit separate (by omega) top).bind fun _ m₁ visited₁ => ?_
      refine (ih visited₁ (by omega)).mono (fun _ => id) fun _ m₂ visited₂ => ?_
      rwa [Nat.add_assoc, Nat.add_comm 1 w] at visited₂

theorem Apart.nodup {lo hi : ℕ} (separate : Apart L m q lo hi) :
    (presentPages m q lo (hi - lo)).Nodup := by
  refine List.Nodup.map_on (fun v mem v' mem' same => ?_) (List.Nodup.filter _ List.nodup_range')
  rw [List.mem_filter, List.mem_range'_1] at mem mem'
  exact separate.once v (Set.mem_Ico.mpr (by omega)) v' (Set.mem_Ico.mpr (by omega)) mem.2
    mem'.2 same

/-- The loop of `deallocuvm` ends, and it does what visits to all pages of the range do: each page
that is present there is freed once and its entry cleared, and nothing else in the directory
changes. -/
theorem deallocFor_visits (L : Link) (m : Mem) (q : ℕ) (oldsz newsz : Word) (less : newsz < oldsz)
    (small : oldsz.toNat ≤ KERNBASE) (turns : ℕ)
    (enough : pages oldsz.toNat - pages newsz.toNat ≤ turns) :
    deallocFor L q oldsz turns (roundUp newsz) m = (do
        visitAll L q (pages oldsz.toNat - pages newsz.toNat) (pages newsz.toNat)
        return true) m ∧
      (Apart L m q (pages newsz.toNat) (pages oldsz.toNat) →
        (presentPages m q (pages newsz.toNat) (pages oldsz.toNat - pages newsz.toNat)).Nodup ∧
        ∃ m', deallocFor L q oldsz turns (roundUp newsz) m = .ok (true, m') ∧
          Visited q (pages newsz.toNat) (pages oldsz.toNat - pages newsz.toNat) m m') := by
  have below : newsz.toNat < oldsz.toNat := less
  have ordered : pages newsz.toNat ≤ pages oldsz.toNat := by
    simp only [pages, PGSIZE]
    omega
  have top : pages oldsz.toNat ≤ 2 ^ 20 := by
    simp only [pages, PGSIZE, KERNBASE] at *
    omega
  rw [roundUp_eq (below.le.trans small), deallocFor_eq small ordered enough]
  refine ⟨rfl, fun separate => ⟨separate.nodup, ?_⟩⟩
  have all := (Visited.refl q (pages newsz.toNat) m).meets_visitAll separate
    (w := pages oldsz.toNat - pages newsz.toNat) (by omega) top
  rw [Nat.zero_add] at all
  rcases all.returns (fun _ => id) with ⟨⟨⟩, m', returned, done⟩
  exact ⟨m', bind_of_ok returned, done⟩

/-- A directory with one table, and a page at 0x3000. -/
def onePage : Mem :=
  ((((⟨fun _ _ => 0, [], [], fun _ => 0, false, false⟩ : Mem).zero 1000).zero 1001).setEntry 1000 0
    (pdeOf 1001)).setEntry
    1001 3 (2000 * PGSIZE ||| PTE_W ||| PTE_P)

/-- The directory has one table. -/
theorem entry_onePage {d : ℕ} : onePage.entry 1000 d = if d = 0 then pdeOf 1001 else 0 := by
  rw [onePage, Mem.entry_setEntry_of_page (by decide)]
  split
  next first =>
    subst first
    exact Mem.entry_setEntry_self (by decide) (pdeOf_lt (by decide))
  next other =>
    rw [Mem.entry_setEntry_of_index other, Mem.zero, Mem.entry_fill_of_ne (by decide)]
    exact Mem.entry_zero

/-- The table has one page. -/
theorem pte_onePage {v : ℕ} (low : v < 2048) :
    onePage.pte 1000 v = if v = 3 then 2000 * PGSIZE ||| PTE_W ||| PTE_P else 0 := by
  rw [Mem.pte, entry_onePage]
  by_cases first : v / NPTENTRIES = 0
  · have small : v < NPTENTRIES := (Nat.div_eq_zero_iff_lt (by decide)).mp first
    simp only [if_pos first, present_pdeOf, if_true, pteAddr_pdeOf, Nat.mod_eq_of_lt small]
    split
    next here =>
      subst here
      exact Mem.entry_setEntry_self (by decide) (by decide)
    next other =>
      rw [onePage, Mem.entry_setEntry_of_index other, Mem.entry_setEntry_of_page (by decide)]
      exact Mem.entry_zero
  · have other : v ≠ 3 := by
      rintro rfl
      exact first (by decide)
    simp only [if_neg first, present_zero, Bool.false_eq_true, if_false, if_neg other]

/-- The page is apart from directory and table. -/
theorem apart_onePage (L : Link) : Apart L onePage 1000 1 2048 := by
  have only : ∀ d, present (onePage.entry 1000 d) = true → d = 0 := by
    intro d here
    rw [entry_onePage] at here
    by_contra other
    rw [if_neg other] at here
    cases here
  have page : ∀ v ∈ Set.Ico 1 2048, present (onePage.pte 1000 v) = true →
      v = 3 ∧ pteAddr (onePage.pte 1000 v) = 2000 := by
    intro v mem here
    rw [pte_onePage mem.2] at here ⊢
    split at here
    next same =>
      rw [if_pos same]
      exact ⟨same, pteAddr_encode (by decide)⟩
    next => cases here
  have table : ∀ d, present (onePage.entry 1000 d) = true →
      pteAddr (onePage.entry 1000 d) = 1001 := by
    intro d here
    rw [entry_onePage, if_pos (only d here), pteAddr_pdeOf]
  refine ⟨fun d _ here => ?_, fun d _ d' _ here here' _ => (only d here).trans (only d' here').symm,
    fun v mem here => ⟨?_, fun d _ here' => ?_⟩, fun v mem v' mem' here here' _ =>
    ?_, fun v mem here => ?_⟩
  · rw [table d here]
    decide
  · rw [(page v mem here).2]
    decide
  · rw [(page v mem here).2, table d here']
    decide
  · exact (page v mem here).1.trans (page v' mem' here').1.symm
  · rw [(page v mem here).2]
    have low := L.low
    simp only [PGSIZE, PHYSTOP]
    omega

/-- From 0x800000 bytes down to one: the loop skips the second table, which is missing. -/
theorem deallocFor_visits_onePage :
    ∃ m', deallocFor link 1000 0x800000 2047 (roundUp 1) onePage = .ok (true, m') ∧
    2000 ∈ m'.freelist ∧ m'.pte 1000 3 = 0 := by
  rcases (deallocFor_visits link onePage 1000 0x800000 1 (by decide) (by decide) 2047 (by decide)).2
    (apart_onePage link) with
    ⟨_, m', returned, visited⟩
  have here : present (onePage.pte 1000 3) = true := by
    rw [pte_onePage (by decide), if_pos rfl]
    exact present_encode
  refine ⟨m', returned, ?_, ?_⟩
  · have freed : 2000 ∈ presentPages onePage 1000 1 2047 := by
      refine List.mem_map.mpr ⟨3, List.mem_filter.mpr ⟨List.mem_range'_1.mpr (by decide), here⟩, ?_⟩
      rw [pte_onePage (by decide), if_pos rfl]
      exact pteAddr_encode (by decide)
    rw [visited.freelist]
    exact List.mem_append_left _ (List.mem_reverse.mpr freed)
  · rw [visited.pte 3 (by decide), if_pos]
    exact ⟨by decide, here⟩

end Xv6.Vm
