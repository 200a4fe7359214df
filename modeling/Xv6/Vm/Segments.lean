import Xv6.Vm.Mapped
import Xv6.Vm.Unshared

/-!
# Loading the segments of a program

`loaduvm` asks that the pages of the segment be mapped, and an image starts at `PGSIZE`: page 0
is never mapped. `exec` does not see to it that a segment starts at `PGSIZE` or above. It gets
through exactly when it never comes to load a part of a segment at address 0.
-/

namespace Xv6.Vm

open Prog

variable {L : Link} {img : Image} {m m' m'' m₀ : Mem} {o o₀ : ℕ → Owner}
  {p q v w n off sz addr offset size i : ℕ} {ph : ProgHdr} {elf : ElfHdr}

/-- What `readi` stores in iteration `i` of `loaduvm`. -/
def Image.chunk (img : Image) (offset sz i : ℕ) : List Byte :=
  (img.readi ((offset + i) % 2 ^ 32) (min (sz - i) PGSIZE)).take (min (sz - i) PGSIZE)

def Mem.store (m : Mem) (p : ℕ) (bytes : List Byte) : Mem :=
  m.fill p (Bytes.move (m.page p) 0 bytes.length fun k => bytes.getD k 0)

/-- From iteration `i` on, the loop of `loaduvm` comes to store bytes of the file in page `p`, in
memory `m'`. -/
inductive Stores (img : Image) (pgdir addr offset sz : ℕ) : ℕ → Mem → ℕ → Mem → Prop
  | here {i pgtab j : ℕ} {m : Mem} : i < sz →
    walkpgdir pgdir (addr + i) false m = .ok (some (pgtab, j), m) →
      img.chunk offset sz i ≠ [] → Stores img pgdir addr offset sz i m (pteAddr (m.entry pgtab j)) m
  | later {i pgtab j p : ℕ} {m m' : Mem} : i < sz →
    walkpgdir pgdir (addr + i) false m = .ok (some (pgtab, j), m) →
      (img.chunk offset sz i).length = min (sz - i) PGSIZE →
      Stores img pgdir addr offset sz (i + PGSIZE)
        (m.store (pteAddr (m.entry pgtab j)) (img.chunk offset sz i)) p m' →
      Stores img pgdir addr offset sz i m p m'

/-- The loop over the `n` headers from `off` on comes to call `loaduvm` for header `ph` in memory
`m'`. -/
inductive Calls (L : Link) (img : Image) (pgdir : ℕ) : ℕ → ℕ → ℕ → Mem → ProgHdr → Mem → Prop
  | here {n off sz sz' : ℕ} {m m' : Mem} {ph : ProgHdr} : Loadable (img.readi off ProgHdr.size) ph →
      allocuvm L pgdir sz (ph.vaddr + ph.memsz) m = .ok (sz', m') → sz' ≠ 0 →
      Calls L img pgdir (n + 1) off sz m ph m'
  | passed {n off sz : ℕ} {m m' : Mem} {ph : ProgHdr} : (img.readi off ProgHdr.size).length =
    ProgHdr.size →
      (ProgHdr.decode (img.readi off ProgHdr.size)).type ≠ ELF_PROG_LOAD →
      Calls L img pgdir n ((off + ProgHdr.size) % 2 ^ 32) sz m ph m' →
      Calls L img pgdir (n + 1) off sz m ph m'
  | later {n off sz sz' : ℕ} {m m₁ m₂ m' : Mem} {ph₁ ph : ProgHdr} :
    Loadable (img.readi off ProgHdr.size) ph₁ →
      allocuvm L pgdir sz (ph₁.vaddr + ph₁.memsz) m = .ok (sz', m₁) → sz' ≠ 0 →
      loaduvm img pgdir ph₁.vaddr ph₁.off ph₁.filesz m₁ = .ok (true, m₂) →
      Calls L img pgdir n ((off + ProgHdr.size) % 2 ^ 32) sz' m₂ ph m' →
      Calls L img pgdir (n + 1) off sz m ph m'

/-- Loading completes or gives up, and the file is stored in pages that were free before `exec`
and now belong to the new address space. -/
structure Survives (L : Link) (img : Image) (pgdir : ℕ) (elf : ElfHdr) (m₀ m : Mem) : Prop where
  returns : ∃ r m', loadSegments L img pgdir elf.phnum elf.phoff PGSIZE m = .ok (r, m')
  stored : ∀ ph m' p m'', Calls L img pgdir elf.phnum elf.phoff PGSIZE m ph m' →
    Stores img pgdir ph.vaddr ph.off ph.filesz 0 m' p m'' → p ∈ m₀.freelist ∧ p ∉ m''.freelist ∧
      ∃ v < USERTOP, present (m''.pte pgdir v) = true ∧ pteAddr (m''.pte pgdir v) = p

/-- A segment at address 0 of which something is in the file finds a page table, and nothing to
read. -/
def Harmless (img : Image) (pgdir : ℕ) (ph : ProgHdr) (m : Mem) : Prop :=
  ph.vaddr = 0 → 0 < ph.filesz → present (m.entry pgdir 0) = true ∧
    img.chunk ph.off ph.filesz 0 = []

/-! ## One segment -/

/-- An iteration of the loop: without a page table it panics, else it stores what it reads. -/
theorem meets_loadLoop_step {Q : Bool → Mem → Prop} {E : Panic → Prop}
    (fresh : Fresh L q sz m₀ m o₀ o) (place : addr + i = v * PGSIZE) (below : v < USERTOP)
    (more : i < size) (absent : m.entry q (v / NPTENTRIES) = 0 → E .loaduvmAddress)
    (short : (img.chunk offset size i).length ≠ min (size - i) PGSIZE →
      Q false (m.store (pteAddr (m.pte q v)) (img.chunk offset size i)))
    (next : (img.chunk offset size i).length = min (size - i) PGSIZE →
      Meets (loadLoop img q addr offset size (i + PGSIZE))
      (m.store (pteAddr (m.pte q v)) (img.chunk offset size i)) E Q) :
    Meets (loadLoop img q addr offset size i) m E Q := by
  rw [loadLoop, if_pos more, place]
  refine meets_bind (meets_walk fresh.owned fresh.isDir (inside_of_user below)
    (fun none _ => ?_) ?_)
  · exact meets_throw (absent none)
  · intro t _ entry
    refine meets_bind (meets_get (meets_bind (meets_modify ?_)))
    rw [← entry]
    exact meets_ite next fun other => meets_pure (short other)

/-- The pages of a segment that does not start at address 0 are mapped. -/
theorem Fresh.mapped (fresh : Fresh L q sz m₀ m o₀ o) (positive : v ≠ 0) (below : v < pages sz) :
    present (m.pte q v) = true ∧ o (pteAddr (m.pte q v)) = .user q v := by
  have user : v < USERTOP := below.trans_le (pages_le_usertop fresh.small)
  have mapped := fresh.full v (Set.mem_Ico.mpr ⟨Nat.one_le_iff_ne_zero.mpr positive, below⟩)
  exact ⟨fresh.owned.present_of_ne_zero fresh.isDir (inside_of_user user) mapped,
    (fresh.own v user).resolve_left mapped⟩

theorem Fresh.hasTable (fresh : Fresh L q sz m₀ m o₀ o) (positive : v ≠ 0) (below : v < pages sz) :
    m.entry q (v / NPTENTRIES) ≠ 0 := by
  intro none
  have here := (fresh.mapped positive below).1
  rw [Mem.pte_of_none none] at here
  cases here

/-- The page of iteration `i`. -/
theorem page_of_iteration (aligned : addr % PGSIZE = 0) (at_ : i % PGSIZE = 0) (more : i < size)
    (fits : addr + size ≤ sz) :
    addr + i = (addr + i) / PGSIZE * PGSIZE ∧ (addr + i) / PGSIZE < pages sz ∧
      (addr ≠ 0 → (addr + i) / PGSIZE ≠ 0) := by
  simp only [pages, PGSIZE] at *
  omega

/-- The loop of `loaduvm` finds all its pages. -/
theorem Fresh.loadLoop_returns (fresh : Fresh L q sz m₀ m o₀ o) (aligned : addr % PGSIZE = 0)
    (positive : addr ≠ 0) (fits : addr + size ≤ sz) (at_ : i % PGSIZE = 0) :
    Meets (loadLoop img q addr offset size i) m (fun _ => False) fun _ _ => True := by
  induction gap : size - i using Nat.strong_induction_on generalizing m i with
  | _ gap ih =>
      by_cases more : i < size
      · rcases page_of_iteration aligned at_ more fits with ⟨place, below, apart⟩
        have user := below.trans_le (pages_le_usertop fresh.small)
        refine meets_loadLoop_step fresh place user more ?_ (fun _ => trivial) fun _ => ?_
        · exact fresh.hasTable (apart positive) below
        · refine ih (size - (i + PGSIZE)) ?_ (fresh.fill user _) ?_ rfl
          · simp only [PGSIZE]
            omega
          · simp only [PGSIZE] at *
            omega
      · rw [loadLoop, if_neg more]
        exact meets_pure trivial

/-- What a walk finds is the entry. -/
theorem Fresh.entry_of_walk {j : ℕ} {t : ℕ} (fresh : Fresh L q sz m₀ m o₀ o) (below : v < USERTOP)
    (found : walkpgdir q (v * PGSIZE) false m = .ok (some (t, j), m')) :
    m.entry t j = m.pte q v := by
  have walk : Meets (walkpgdir q (v * PGSIZE) false) m (fun _ => True) fun r _ =>
      ∀ t j, r = some (t, j) → m.entry t j = m.pte q v := by
    refine meets_walk fresh.owned fresh.isDir (inside_of_user below) (fun _ _ => nofun) ?_
    rintro t _ entry _ _ ⟨⟩
    exact entry.symm
  exact walk.of_ok found t j rfl

/-- The bytes of a segment that does not start at address 0 go to its pages. -/
theorem Fresh.stored (fresh : Fresh L q sz m₀ m o₀ o) (aligned : addr % PGSIZE = 0)
    (positive : addr ≠ 0) (fits : addr + size ≤ sz) (at_ : i % PGSIZE = 0)
    (stores : Stores img q addr offset size i m p m') :
    ∃ v, v ≠ 0 ∧ v < pages sz ∧ pteAddr (m'.pte q v) = p ∧ Fresh L q sz m₀ m' o₀ o := by
  induction stores with
  | here more found _ =>
      rcases page_of_iteration aligned at_ more fits with ⟨place, below, apart⟩
      rw [place] at found
      rw [fresh.entry_of_walk (below.trans_le (pages_le_usertop fresh.small)) found]
      exact ⟨_, apart positive, below, rfl, fresh⟩
  | later more found _ _ ih =>
      rcases page_of_iteration aligned at_ more fits with ⟨place, below, apart⟩
      have user := below.trans_le (pages_le_usertop fresh.small)
      rw [place] at found
      refine ih ?_ ?_
      · rw [fresh.entry_of_walk user found]
        exact fresh.fill user _
      · simp only [PGSIZE] at *
        omega

/-! ## All segments -/

/-- An allocation that succeeds makes a larger image. -/
theorem Fresh.allocated {sz' : ℕ} (fresh : Fresh L q sz m₀ m o₀ o)
    (returned : allocuvm L q sz n m = .ok (sz', m')) (nonzero : sz' ≠ 0) :
    n < KERNBASE ∧ n ≤ sz' ∧ ∃ o', Fresh L q sz' m₀ m' o₀ o' := by
  have outcome : Meets (allocuvm L q sz n) m (fun _ => True) fun r m' =>
      r ≠ 0 → n < KERNBASE ∧ n ≤ r ∧ ∃ o', Fresh L q r m₀ m' o₀ o' := by
    refine fresh.meets_allocuvm (fun _ _ _ _ zero => absurd rfl zero) fun m' o' small fresh' _ _ =>
      ?_
    exact ⟨small, le_max_right _ _, o', fresh'⟩
  exact outcome.of_ok returned nonzero

/-- What `exec` has seen to when it calls `loaduvm`. -/
structure Ready (L : Link) (q : ℕ) (ph : ProgHdr) (m₀ m : Mem) (o₀ : ℕ → Owner) : Prop where
  aligned : ph.vaddr % PGSIZE = 0
  fresh : ∃ sz o, Fresh L q sz m₀ m o₀ o ∧ ph.vaddr + ph.filesz ≤ sz

theorem Fresh.ready {sz' : ℕ} {bytes : List Byte} (fresh : Fresh L q sz m₀ m o₀ o)
    (loadable : Loadable bytes ph)
    (returned : allocuvm L q sz (ph.vaddr + ph.memsz) m = .ok (sz', m')) (nonzero : sz' ≠ 0) :
    Ready L q ph m₀ m' o₀ := by
  rcases fresh.allocated returned nonzero with ⟨_, large, o', fresh'⟩
  exact ⟨loadable.aligned, sz', o', fresh', (Nat.add_le_add_left loadable.file _).trans large⟩

/-- `loaduvm` is never called before that. -/
theorem Calls.ready (calls : Calls L img q n off sz m ph m') (fresh : Fresh L q sz m₀ m o₀ o) :
    Ready L q ph m₀ m' o₀ := by
  induction calls generalizing o with
  | here loadable returned nonzero => exact fresh.ready loadable returned nonzero
  | passed _ _ _ ih => exact ih fresh
  | later loadable returned nonzero loaded _ ih =>
      rcases fresh.allocated returned nonzero with ⟨small, _, o', fresh'⟩
      have fits := loadable.file
      exact ih ((fresh'.meets_loaduvm loadable.aligned (by omega)).of_ok loaded)

/-- The loop passes over a header, or comes to call `loaduvm` for it. -/
theorem loadSegments_of_passed (whole : (img.readi off ProgHdr.size).length = ProgHdr.size)
    (other : (ProgHdr.decode (img.readi off ProgHdr.size)).type ≠ ELF_PROG_LOAD) :
    loadSegments L img q (n + 1) off sz =
      loadSegments L img q n ((off + ProgHdr.size) % 2 ^ 32) sz := by
  rw [loadSegments, if_neg (not_not.mpr whole), if_pos other]

/-- A header that can be loaded is. -/
theorem loadSegments_of_loadable {sz' : ℕ} (loadable : Loadable (img.readi off ProgHdr.size) ph)
    (returned : allocuvm L q sz (ph.vaddr + ph.memsz) m = .ok (sz', m')) (nonzero : sz' ≠ 0) :
    loadSegments L img q (n + 1) off sz m = (do
      if ← loaduvm img q ph.vaddr ph.off ph.filesz then
        loadSegments L img q n ((off + ProgHdr.size) % 2 ^ 32) sz'
      else return none) m' := by
  have total := Nat.mod_eq_of_lt loadable.end_lt
  have wraps := loadable.wraps
  rw [loadSegments, loadable.decode, if_neg (not_not.mpr loadable.whole),
    if_neg (not_not.mpr loadable.type),
    if_neg (Nat.not_lt.mpr loadable.file), if_neg (Nat.not_lt.mpr wraps), total,
    bind_of_ok returned,
    if_neg nonzero, if_neg (not_not.mpr loadable.aligned)]

/-- When loading returns, every call of `loaduvm` has. -/
theorem Calls.returned (calls : Calls L img q n off sz m ph m') {r : Option ℕ × Mem}
    (returned : loadSegments L img q n off sz m = .ok r) :
    ∃ r', loaduvm img q ph.vaddr ph.off ph.filesz m' = .ok r' := by
  induction calls with
  | here loadable allocated nonzero =>
      rw [loadSegments_of_loadable loadable allocated nonzero] at returned
      rcases ok_of_bind returned with ⟨loaded, m'', first, _⟩
      exact ⟨_, first⟩
  | passed whole other _ ih =>
      rw [loadSegments_of_passed whole other] at returned
      exact ih returned
  | later loadable allocated nonzero loaded _ ih =>
      rw [loadSegments_of_loadable loadable allocated nonzero, bind_of_ok loaded] at returned
      exact ih returned

/-! ## Address 0 -/

theorem Harmless.of_ne (other : ph.vaddr ≠ 0) : Harmless img q ph m := fun zero => absurd zero other

/-- Without harm `loaduvm` returns. -/
theorem Ready.meets_loaduvm (ready : Ready L q ph m₀ m o₀) (harmless : Harmless img q ph m) :
    Meets (loaduvm img q ph.vaddr ph.off ph.filesz) m (fun _ => False) fun _ _ => True := by
  rcases ready.fresh with ⟨sz, o, fresh, fits⟩
  refine meets_ite (fun odd => absurd ready.aligned odd) fun _ => ?_
  by_cases zero : ph.vaddr = 0
  · by_cases some : 0 < ph.filesz
    · rcases harmless zero some with ⟨table, nothing⟩
      have place : ph.vaddr + 0 = 0 * PGSIZE := by rw [zero, Nat.zero_mul]
      refine meets_loadLoop_step fresh place (by decide) some ?_ (fun _ => trivial) ?_
      · exact fun none => absurd none (ne_zero_of_present table)
      · intro all
        rw [nothing, List.length_nil] at all
        simp only [PGSIZE] at all
        omega
    · rw [loadLoop, if_neg some]
      exact meets_pure trivial
  · exact fresh.loadLoop_returns ready.aligned zero fits rfl

/-- Nothing is stored for a harmless segment but in its own pages. -/
theorem Ready.stored (ready : Ready L q ph m₀ m o₀) (harmless : Harmless img q ph m)
    (stores : Stores img q ph.vaddr ph.off ph.filesz 0 m p m') :
    ∃ sz o v, Fresh L q sz m₀ m' o₀ o ∧ v ≠ 0 ∧ v < pages sz ∧ pteAddr (m'.pte q v) = p := by
  rcases ready.fresh with ⟨sz, o, fresh, fits⟩
  by_cases zero : ph.vaddr = 0
  · cases stores with
    | here more _ some => exact absurd (harmless zero more).2 some
    | later more _ all _ =>
        rw [(harmless zero more).2, List.length_nil] at all
        simp only [PGSIZE] at all
        omega
  · rcases fresh.stored ready.aligned zero fits rfl stores with ⟨v, positive, below, page, fresh'⟩
    exact ⟨sz, o, v, fresh', positive, below, page⟩

/-- The first directory entry is a page table, or none at all. -/
theorem Ready.present_iff (ready : Ready L q ph m₀ m o₀) :
    present (m.entry q 0) = true ↔ m.entry q 0 ≠ 0 := by
  rcases ready.fresh with ⟨_, o, fresh, _⟩
  refine ⟨ne_zero_of_present, fun some => ?_⟩
  rcases fresh.owned.pde q 0 fresh.isDir (by decide) with none | ⟨t, linked, _⟩
  · exact absurd none some
  · rw [linked.1]

/-- Without a page table `loaduvm` panics. -/
theorem Ready.loaduvm_panics (ready : Ready L q ph m₀ m o₀) (zero : ph.vaddr = 0)
    (some : 0 < ph.filesz) (none : m.entry q 0 = 0) :
    ¬∃ r, loaduvm img q ph.vaddr ph.off ph.filesz m = .ok r := by
  rcases ready.fresh with ⟨sz, o, fresh, _⟩
  have place : ph.vaddr + 0 = 0 * PGSIZE := by rw [zero, Nat.zero_mul]
  have stops : Meets (loaduvm img q ph.vaddr ph.off ph.filesz) m (fun _ => True) fun _ _ =>
      False := by
    refine meets_ite (fun odd => absurd ready.aligned odd) fun _ => ?_
    rw [loadLoop, if_pos some, place]
    refine meets_bind (meets_walk fresh.owned fresh.isDir (by decide)
      (fun _ _ => meets_throw trivial) fun t table _ => ?_)
    have linked := (fresh.owned.table t q _ table).2.2
    rw [Nat.zero_div] at linked
    exact absurd none linked.ne_zero
  rintro ⟨⟨loaded, m'⟩, returned⟩
  exact stops.of_ok returned

/-- With a page table the bytes are stored in physical page 0. -/
theorem Ready.stores_zero (ready : Ready L q ph m₀ m o₀) (zero : ph.vaddr = 0)
    (some : 0 < ph.filesz) (table : m.entry q 0 ≠ 0) (bytes : img.chunk ph.off ph.filesz 0 ≠ []) :
    Stores img q ph.vaddr ph.off ph.filesz 0 m 0 m := by
  rcases ready.fresh with ⟨sz, o, fresh, _⟩
  have place : ph.vaddr + 0 = 0 * PGSIZE := by rw [zero, Nat.zero_mul]
  have walk : Meets (walkpgdir q (ph.vaddr + 0) false) m (fun _ => False) fun r m' =>
      m' = m ∧ ∃ t j, r = Option.some (t, j) ∧ m.entry t j = 0 := by
    rw [place]
    refine meets_walk fresh.owned fresh.isDir (by decide) (fun none _ => ?_) fun t _ entry => ?_
    · exact absurd none table
    · exact ⟨rfl, t, _, rfl, entry.symm.trans fresh.first⟩
  rcases walk.returns fun _ => id with ⟨_, _, found, same, t, j, rfl, entry⟩
  rw [same] at found
  have stores := Stores.here some found bytes
  rwa [entry] at stores

/-- Without harm the loop over the headers returns. -/
theorem Fresh.loadSegments_returns (fresh : Fresh L q sz m₀ m o₀ o)
    (harmless : ∀ ph m', Calls L img q n off sz m ph m' → Harmless img q ph m') :
    Meets (loadSegments L img q n off sz) m (fun _ => False) fun _ _ => True := by
  induction n generalizing m o off sz with
  | zero => exact meets_pure trivial
  | succ n ih =>
      refine fresh.meets_loadSegments_step (fun _ _ => trivial) ?_ ?_
      · intro whole other
        exact ih fresh fun ph m' calls => harmless ph m' (.passed whole other calls)
      · intro ph m' o' loadable small allocated fresh'
        have nonzero : max sz (ph.vaddr + ph.memsz) ≠ 0 := fresh'.positive.ne'
        have fits : ph.vaddr + ph.filesz ≤ KERNBASE :=
          (Nat.add_le_add_left loadable.file _).trans small.le
        have load := (fresh.ready loadable allocated nonzero).meets_loaduvm
          (harmless ph m' (.here loadable allocated nonzero))
        refine Meets.run (Meets.and_then (fresh'.meets_loaduvm loadable.aligned fits) ?_)
        refine load.mono (fun _ => id) fun loaded m'' _ fresh'' returned => ?_
        cases loaded with
        | true => exact ih fresh'' fun ph m' calls =>
            harmless ph m' (.later loadable allocated nonzero returned calls)
        | false => trivial

/-- When `exec` gets through, every segment that it has come to is harmless. -/
theorem Survives.harmless (survives : Survives L img q elf m₀ m) (owned : Owned L m₀ o₀)
    (fresh : ∃ o₀ o, Fresh L q PGSIZE m₀ m o₀ o)
    (calls : Calls L img q elf.phnum elf.phoff PGSIZE m ph m') :
    Harmless img q ph m' := by
  intro zero some
  rcases fresh with ⟨_, o, fresh⟩
  have ready := calls.ready fresh
  have table : m'.entry q 0 ≠ 0 := by
    intro none
    rcases survives.returns with ⟨r, m'', returned⟩
    exact ready.loaduvm_panics zero some none (calls.returned returned)
  refine ⟨ready.present_iff.mpr table, ?_⟩
  by_contra bytes
  have free := (survives.stored ph m' 0 m' calls (ready.stores_zero zero some table bytes)).1
  exact owned.page_pos (by rw [(owned.free 0).mp free]; nofun) rfl

/-- Without harm the caller survives. -/
theorem Fresh.survives (fresh : Fresh L q PGSIZE m₀ m o₀ o) (quiescent : Quiescent o₀)
    (harmless : ∀ ph m', Calls L img q elf.phnum elf.phoff PGSIZE m ph m' → Harmless img q ph m') :
    Survives L img q elf m₀ m where
  returns := by
    rcases (fresh.loadSegments_returns harmless).returns (fun _ => id) with ⟨r, m', returned, _⟩
    exact ⟨r, m', returned⟩
  stored := by
    intro ph m' p m'' calls stores
    rcases (calls.ready fresh).stored (harmless ph m' calls) stores
      with ⟨sz, o', v, fresh', positive, below, page⟩
    rcases fresh'.mapped positive below with ⟨here, user⟩
    rw [page] at user
    refine ⟨?_, ?_, v, below.trans_le (pages_le_usertop fresh'.small), here, page⟩
    · rcases fresh'.lent quiescent p with same | ⟨free, _⟩
      · rw [user] at same
        have isDir := (fresh'.before.user p q v same.symm).1
        rw [fresh'.free] at isDir
        cases isDir
      · exact (fresh'.before.free p).mpr free
    · intro mem
      rw [(fresh'.owned.free p).mp mem] at user
      cases user

/-- `exec` gets through unless it comes to load a part of a segment at address 0. -/
theorem survives_iff (owned : Owned L m₀ o₀) (made : setupkvm L m₀ = .ok (some q, m)) :
    Survives L img q elf m₀ m ↔ ∀ ph m', Calls L img q elf.phnum elf.phoff PGSIZE m ph m' →
      Harmless img q ph m' := by
  rcases owned.fresh made with ⟨o, fresh⟩
  constructor
  · exact fun survives ph m' calls => survives.harmless owned ⟨_, o, fresh⟩ calls
  · exact fresh.survives quiescent_quiesced

/-! ## An example of each kind -/

def Image.ofBytes (bytes : List Byte) : Image where
  readi off n := (bytes.drop off).take n

/-- An executable with one segment, of one byte at address `256 * high`. -/
def oneSegment (high : Byte) : List Byte :=
  [0x7F, 0x45, 0x4C, 0x46] ++ List.replicate 24 0 ++ [52, 0, 0, 0] ++ List.replicate 12 0 ++
    [1, 0] ++
    List.replicate 6 0 ++ [1, 0, 0, 0] ++ List.replicate 4 0 ++ [0, high, 0, 0] ++
      List.replicate 4 0 ++
    [1, 0, 0, 0] ++ [1, 0, 0, 0] ++ List.replicate 8 0

/-- A new directory can be made. -/
theorem exists_made : ∃ m₀ o₀ q m, Owned link m₀ o₀ ∧ setupkvm link m₀ = .ok (some q, m) ∧
    m.entry q 0 = 0 ∧ Ample 2 m := by
  have few : 1 + kernelTables.card + 2 ≤ 50000 := by
    rw [card_kernelTables]
    decide
  rcases exists_roomy link few with ⟨m₀, o₀, _, roomy⟩
  have made : Meets (setupkvm link) m₀ (fun _ => False) fun r m =>
      ∃ q, r = some q ∧ m.entry q 0 = 0 ∧ Ample 2 m := by
    refine meets_setupkvm roomy.owned ?_ ?_
    · rintro m' o' _ _ _ _ ⟨k, less, fails⟩
      exact absurd fails (roomy.ample.not_failsAt (by omega))
    · intro q m' o' kvm _
      exact ⟨q, rfl, kvm.pde 0 (by decide), roomy.ample.allocs kvm.allocs⟩
  rcases made.returns fun _ => id with ⟨_, m, returned, q, rfl, hole, ample⟩
  exact ⟨m₀, o₀, q, m, roomy.owned, returned, hole, ample⟩

/-- With two pages of memory the image can grow by a byte. -/
theorem Fresh.allocuvm_ok (fresh : Fresh L q PGSIZE m₀ m o₀ o) (ample : Ample 2 m) :
    ∃ m', allocuvm L q PGSIZE (PGSIZE + 1) m = .ok (PGSIZE + 1, m') := by
  have grown : Meets (allocuvm L q PGSIZE (PGSIZE + 1)) m (fun _ => False) fun r _ =>
      r = PGSIZE + 1 := by
    refine fresh.meets_allocuvm (fun m' o' _ short => ?_) fun _ _ _ _ _ => rfl
    have tables : ∀ v ∈ Set.Ico (pages PGSIZE) (pages (PGSIZE + 1)), v / NPTENTRIES ∈
        ({0} : Finset ℕ) := by
      intro v mem
      rw [Set.mem_Ico, show pages (PGSIZE + 1) = 2 by decide] at mem
      rw [Finset.mem_singleton, NPTENTRIES]
      omega
    rcases short (by decide) {0} tables with ⟨k, less, fails⟩
    rw [missing_singleton, show pages (PGSIZE + 1) - pages PGSIZE = 1 by decide] at less
    refine absurd fails (ample.not_failsAt ?_)
    split_ifs at less
    all_goals omega
  rcases grown.returns fun _ => id with ⟨_, m', returned, rfl⟩
  exact ⟨m', returned⟩

/-- A segment that starts at `PGSIZE` is loaded. -/
theorem survives_oneSegment :
    ∃ q m₀ m m', Calls link (.ofBytes (oneSegment 16)) q 1 52 PGSIZE m ⟨1, 0, PGSIZE, 1, 1⟩ m' ∧
    Survives link (.ofBytes (oneSegment 16)) q ⟨ELF_MAGIC, 0, 52, 1⟩ m₀ m := by
  rcases exists_made with ⟨m₀, o₀, q, m, owned, made, _, ample⟩
  rcases owned.fresh made with ⟨o, fresh⟩
  have decoded : ProgHdr.decode ((Image.ofBytes (oneSegment 16)).readi 52 ProgHdr.size) =
      ⟨1, 0, PGSIZE, 1, 1⟩ := by
    rw [ProgHdr.decode, ProgHdr.mk.injEq]
    decide +kernel
  have loadable : Loadable ((Image.ofBytes (oneSegment 16)).readi 52 ProgHdr.size)
      ⟨1, 0, PGSIZE, 1, 1⟩ :=
    ⟨by decide +kernel, decoded, rfl, le_rfl, by decide, rfl⟩
  rcases fresh.allocuvm_ok ample with ⟨m', allocated⟩
  refine ⟨q, m₀, m, m', .here loadable allocated (by decide),
    (survives_iff owned made).mpr fun ph m' calls => ?_⟩
  -- There is no other header.
  have only : ph = ⟨1, 0, PGSIZE, 1, 1⟩ := by
    cases calls with
    | here loadable' => exact loadable'.decode.symm.trans decoded
    | passed _ other _ => exact absurd loadable.type (decoded ▸ other)
    | later _ _ _ _ rest => cases rest
  subst only
  exact Harmless.of_ne (by decide)

/-- A segment at address 0 has bytes in the file, and no page of the image lies there. -/
theorem survives_fails :
    ¬∀ (L : Link) (img : Image) (m₀ : Mem) (o₀ : ℕ → Owner) (q : ℕ) (m : Mem), Owned L m₀ o₀ →
    (ElfHdr.decode (img.readi 0 ElfHdr.size)).magic = ELF_MAGIC → setupkvm L m₀ = .ok (some q, m) →
    Survives L img q (ElfHdr.decode (img.readi 0 ElfHdr.size)) m₀ m := by
  intro always
  rcases exists_made with ⟨m₀, o₀, q, m, owned, made, hole, _⟩
  rcases owned.fresh made with ⟨o, fresh⟩
  have survives := always link (.ofBytes (oneSegment 0)) m₀ o₀ q m owned (by decide +kernel) made
  have header : ElfHdr.decode ((Image.ofBytes (oneSegment 0)).readi 0 ElfHdr.size) =
      ⟨ELF_MAGIC, 0, 52, 1⟩ := by
    rw [ElfHdr.decode, ElfHdr.mk.injEq]
    decide +kernel
  rw [header] at survives
  have loadable : Loadable ((Image.ofBytes (oneSegment 0)).readi 52 ProgHdr.size)
      ⟨1, 0, 0, 1, 1⟩ := by
    refine ⟨by decide +kernel, ?_, rfl, le_rfl, Nat.zero_le _, rfl⟩
    rw [ProgHdr.decode, ProgHdr.mk.injEq]
    decide +kernel
  have allocated : allocuvm link q PGSIZE (0 + 1) m = .ok (PGSIZE, m) := by
    rw [allocuvm, if_neg (by decide), if_pos (by decide)]
    rfl
  have calls : Calls link (.ofBytes (oneSegment 0)) q 1 52 PGSIZE m ⟨1, 0, 0, 1, 1⟩ m :=
    .here loadable allocated (by decide)
  have harmless := survives.harmless owned ⟨_, o, fresh⟩ calls rfl Nat.one_pos
  rw [hole] at harmless
  cases harmless.1

end Xv6.Vm
