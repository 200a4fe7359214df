import Xv6.Vm.Exec
import Xv6.Vm.Kvm

/-!
# Building an address space

What `exec` does up to its commit: every page that it maps below `KERNBASE` is the new
directory's own, and what it writes goes to such pages. On the way the directory may grow
and be written; when `exec` gives up, it is freed.
-/

namespace Xv6.Vm

open Prog

variable {L : Link} {m m' m₀ : Mem} {o o' o₀ : ℕ → Owner} {p q t d i v w n sz : ℕ}
  {E : Panic → Prop}

/-- Directory `q` has been made since `m₀`. -/
structure Building (L : Link) (q : ℕ) (m₀ m : Mem) (o₀ o : ℕ → Owner) : Prop where
  before : Owned L m₀ o₀
  free : o₀ q = .free
  owned : Owned L m o
  isDir : o q = .dir
  aside : Aside m₀ m o₀ o

/-- It has the pages of a process of `sz` bytes, except the first. -/
structure Filled (L : Link) (q sz : ℕ) (m₀ m : Mem) (o₀ o : ℕ → Owner) : Prop
    extends Building L q m₀ m o₀ o where
  small : sz ≤ KERNBASE
  positive : 0 < sz
  own : ∀ v < USERTOP, Private m o q v
  full : ∀ v ∈ Set.Ico 1 (pages sz), m.pte q v ≠ 0
  above : ∀ v, pages sz ≤ v → v < USERTOP → m.pte q v = 0

/-- Nothing but free pages has gone into it, and page 0 is not mapped. -/
structure Fresh (L : Link) (q sz : ℕ) (m₀ m : Mem) (o₀ o : ℕ → Owner) : Prop
    extends Filled L q sz m₀ m o₀ o where
  first : m.pte q 0 = 0
  lent : Quiescent o₀ → Lent q o₀ o

namespace Building

theorem loose (building : Building L q m₀ m o₀ o) : (o₀ q).Loose := by
  rw [building.free]
  trivial

theorem edited {V : Set ℕ} (building : Building L q m₀ m o₀ o) (edited : Edited L q V m m' o o') :
    Building L q m₀ m' o₀ o' :=
  ⟨building.before, building.free, edited.owned, edited.isDir,
    building.aside.frame building.before building.loose edited.kept.toFrame⟩

/-- A page of the directory, or none at all, is written. -/
theorem fill (building : Building L q m₀ m o₀ o) (page : o p = .outside ∨ o p = .user q v)
    (contents : Page) :
    Building L q m₀ (m.fill p contents) o₀ o ∧
      ∀ v < 2 ^ 20, (m.fill p contents).pte q v = m.pte q v := by
  have kept : ∀ r, (o r).HoldsEntries → (m.fill p contents).page r = m.page r := by
    intro r holds
    apply Mem.fill_page_of_ne
    rintro rfl
    rcases page with outside | user
    · rw [outside] at holds
      exact holds
    · rw [user] at holds
      exact holds
  refine ⟨⟨building.before, building.free, building.owned.of_kept kept rfl rfl, building.isDir,
    ⟨building.aside.stays, ?_, building.aside.smAddr, building.aside.failed, building.aside.clean⟩⟩,
    fun v inside => building.owned.pte_congr kept building.isDir inside⟩
  intro r settled known
  have same := building.aside.stays r settled
  rw [Mem.fill_page_of_ne, building.aside.page r settled known]
  rintro rfl
  rcases page with outside | user
  · exact known (same ▸ outside)
  · rw [same] at user
    have dir := (building.before.user r q v user).1
    rw [building.free] at dir
    cases dir

end Building

theorem inside_of_user (below : v < USERTOP) : v < 2 ^ 20 := by
  simp only [USERTOP, KERNBASE, PGSIZE] at below
  omega

namespace Fresh

theorem lent_kept (fresh : Fresh L q sz m₀ m o₀ o) (kept : Kept q m m' o o')
    (quiescent : Quiescent o₀) :
    Lent q o₀ o' :=
  (fresh.lent quiescent).kept fresh.before quiescent fresh.free kept

/-- What is written goes to a page of the directory, or to a page that nobody owns. -/
theorem fill (fresh : Fresh L q sz m₀ m o₀ o) (below : v < USERTOP) (contents : Page) :
    Fresh L q sz m₀ (m.fill (pteAddr (m.pte q v)) contents) o₀ o := by
  have page : o (pteAddr (m.pte q v)) = .outside ∨ o (pteAddr (m.pte q v)) = .user q v := by
    refine (fresh.own v below).imp_left fun zero => ?_
    rw [zero]
    by_contra known
    exact fresh.owned.page_pos known rfl
  rcases fresh.toBuilding.fill page contents with ⟨building, same⟩
  refine ⟨⟨building, fresh.small, fresh.positive, fun v' below' => ?_, fun v' mem =>
    ?_, fun v' after below' => ?_⟩,
    (same 0 (by decide)).trans fresh.first, fresh.lent⟩
  · rw [Private, same v' (inside_of_user below')]
    exact fresh.own v' below'
  · rw [same v' (inside_of_user ((Set.mem_Ico.mp mem).2.trans_le (pages_le_usertop fresh.small)))]
    exact fresh.full v' mem
  · rw [same v' (inside_of_user below')]
    exact fresh.above v' after below'

theorem pages_pos (positive : 0 < sz) : 0 < pages sz := by
  simp only [pages, PGSIZE]
  omega

/-- The directory has grown to `n` bytes. -/
theorem grown (fresh : Fresh L q sz m₀ m o₀ o)
    (grown : Grown L q (pages sz) (pages n) (fun _ => UVMFLAGS) m m' o o') (larger : sz ≤ n)
    (small : n ≤ KERNBASE) : Fresh L q n m₀ m' o₀ o' where
  toBuilding := fresh.toBuilding.edited grown.edited
  small := small
  positive := fresh.positive.trans_le larger
  own := by
    intro v below
    by_cases mem : v ∈ Set.Ico (pages sz) (pages n)
    · exact Or.inr (grown.user (fun _ => by decide) mem)
    · rw [Private, grown.edited.pte v mem (inside_of_user below)]
      refine (fresh.own v below).imp_right fun user => ?_
      rw [grown.stays _ (by rw [user]; nofun), user]
  full := by
    intro v mem
    by_cases late : v ∈ Set.Ico (pages sz) (pages n)
    · exact ne_zero_of_present (grown.present late)
    · have bound := (Set.mem_Ico.mp mem).2
      rw [grown.edited.pte v late (inside_of_user (bound.trans_le (pages_le_usertop small)))]
      refine fresh.full v (Set.mem_Ico.mpr ⟨(Set.mem_Ico.mp mem).1, ?_⟩)
      by_contra after
      exact late (Set.mem_Ico.mpr ⟨Nat.not_lt.mp after, bound⟩)
  above := by
    intro v after below
    rw [grown.edited.pte v (fun mem => absurd (Set.mem_Ico.mp mem).2 (Nat.not_lt.mpr after))
      (inside_of_user below)]
    exact fresh.above v ((pages_mono larger).trans after) below
  first := by
    have apart : 0 ∉ Set.Ico (pages sz) (pages n) :=
      fun mem => absurd (Set.mem_Ico.mp mem).1 (Nat.not_le.mpr (pages_pos fresh.positive))
    rw [grown.edited.pte 0 apart (by decide)]
    exact fresh.first
  lent := fresh.lent_kept grown.edited.kept

/-- The directory could not grow, and is as large as it was. -/
theorem restored (fresh : Fresh L q sz m₀ m o₀ o)
    (restored : Restored L q (pages sz) (pages n) m m' o o') :
    Fresh L q sz m₀ m' o₀ o' where
  toBuilding := fresh.toBuilding.edited restored.edited
  small := fresh.small
  positive := fresh.positive
  own := by
    intro v below
    by_cases mem : v ∈ Set.Ico (pages sz) (pages n)
    · exact Or.inl (restored.zero v mem)
    · rw [Private, restored.edited.pte v mem (inside_of_user below)]
      refine (fresh.own v below).imp_right fun user => ?_
      rw [restored.stays _ (by rw [user]; nofun), user]
  full := by
    intro v mem
    have bound := (Set.mem_Ico.mp mem).2
    have early : v ∉ Set.Ico (pages sz) (pages n) :=
      fun late => absurd bound (Nat.not_lt.mpr (Set.mem_Ico.mp late).1)
    rw [restored.edited.pte v early
      (inside_of_user (bound.trans_le (pages_le_usertop fresh.small)))]
    exact fresh.full v mem
  above := by
    intro v after below
    by_cases mem : v ∈ Set.Ico (pages sz) (pages n)
    · exact restored.zero v mem
    · rw [restored.edited.pte v mem (inside_of_user below)]
      exact fresh.above v after below
  first := by
    have apart : 0 ∉ Set.Ico (pages sz) (pages n) :=
      fun mem => absurd (Set.mem_Ico.mp mem).1 (Nat.not_le.mpr (pages_pos fresh.positive))
    rw [restored.edited.pte 0 apart (by decide)]
    exact fresh.first
  lent := fresh.lent_kept restored.edited.kept

/-- The size is rounded up. -/
theorem roundUp (fresh : Fresh L q sz m₀ m o₀ o) : Fresh L q (pages sz * PGSIZE) m₀ m o₀ o := by
  have same : pages (pages sz * PGSIZE) = pages sz := by
    simp only [pages, PGSIZE]
    omega
  have small := fresh.small
  refine ⟨⟨fresh.toBuilding, ?_, ?_, fresh.own, ?_, ?_⟩, fresh.first, fresh.lent⟩
  · simp only [pages, KERNBASE, PGSIZE] at *
    omega
  · exact Nat.mul_pos (pages_pos fresh.positive) (by decide)
  · rw [same]
    exact fresh.full
  · rw [same]
    exact fresh.above

/-- `setupkvm` has made it. -/
theorem of_kvm (kvm : Kvm L q m₀ m o₀ o) (owned : Owned L m₀ o₀)
    (lent : Quiescent o₀ → Lent q o₀ o) :
    Fresh L q PGSIZE m₀ m o₀ o := by
  refine ⟨⟨⟨owned, kvm.free, kvm.owned, kvm.isDir, kvm.aside⟩, by decide, by decide, ?_, ?_, ?_⟩,
    kvm.empty (by decide), lent⟩
  · exact fun v below => Or.inl (kvm.empty below)
  · intro v mem
    rw [Set.mem_Ico, show pages PGSIZE = 1 by decide] at mem
    omega
  · exact fun v _ below => kvm.empty below

/-- `allocuvm` on a directory that is being made. -/
theorem meets_allocuvm {Q : ℕ → Mem → Prop} (fresh : Fresh L q sz m₀ m o₀ o)
    (failure : ∀ m' o', Fresh L q sz m₀ m' o₀ o' →
      (n < KERNBASE → ∀ S : Finset ℕ, (∀ v ∈ Set.Ico (pages sz) (pages n), v / NPTENTRIES ∈ S) →
      Short S q (pages n - pages sz) m) → Q 0 m')
    (success : ∀ m' o', n < KERNBASE → Fresh L q (max sz n) m₀ m' o₀ o' →
      (sz ≤ n → Grown L q (pages sz) (pages n) (fun _ => UVMFLAGS) m m' o o') → Q (max sz n) m') :
    Meets (allocuvm L q sz n) m E Q := by
  refine Vm.meets_allocuvm fresh.owned fresh.isDir (fun small v mem => ?_) 
    (fun large => failure m o fresh fun small => absurd small (Nat.not_lt.mpr large))
      (fun less small => ?_)
    (fun _ _ m' o' restored => failure m' o' (fresh.restored restored) fun _ => restored.short)
    fun larger small m' o' grown => ?_
  · rw [Set.mem_Ico] at mem
    exact fresh.above v mem.1 (mem.2.trans_le (pages_le_usertop small.le))
  · have kept := success m o small
    rw [max_eq_left less.le] at kept
    exact kept fresh fun larger => absurd less (Nat.not_lt.mpr larger)
  · have kept := success m' o' small
    rw [max_eq_right larger] at kept
    exact kept (fresh.grown grown larger small.le) fun _ => grown

end Fresh

theorem Owned.fresh (owned : Owned L m₀ o₀) (made : setupkvm L m₀ = .ok (some q, m)) :
    ∃ o, Fresh L q PGSIZE m₀ m (quiesced o₀) o := by
  have start : Meets (setupkvm L) m₀ (fun _ => True) fun r m => ∀ q, r = some q →
      ∃ o, Fresh L q PGSIZE m₀ m (quiesced o₀) o := by
    refine meets_setupkvm owned.quiesce (fun _ _ _ _ _ _ _ => nofun) ?_
    rintro q m o kvm lent _ ⟨⟩
    exact ⟨o, .of_kvm kvm owned.quiesce lent⟩
  exact start.of_ok made q rfl

/-- The building of directory `q` has come to an end, in success or failure. -/
def Ends (L : Link) (q : ℕ) (m₀ : Mem) (o₀ : ℕ → Owner) (r : Option ℕ) (m : Mem) : Prop :=
  ∃ sz o, Fresh L q sz m₀ m o₀ o ∧ ∀ s ∈ r, s = sz

/-! ## Segments -/

/-- A loop that only writes to pages of the directory. -/
theorem Fresh.meets_loadLoop {img : Image} {addr offset size i : ℕ} (fresh : Fresh L q sz m₀ m o₀ o)
    (aligned : addr % PGSIZE = 0) (at_ : i % PGSIZE = 0) (below : addr + size ≤ KERNBASE) :
    Meets (loadLoop img q addr offset size i) m (fun _ => True) fun _ m' =>
      Fresh L q sz m₀ m' o₀ o := by
  induction gap : size - i using Nat.strong_induction_on generalizing m i with
  | _ gap ih =>
      rw [loadLoop]
      refine meets_ite (fun more => ?_) fun _ => meets_pure fresh
      have place : addr + i = (addr + i) / PGSIZE * PGSIZE := by
        simp only [PGSIZE] at *
        omega
      have user : (addr + i) / PGSIZE < USERTOP := by
        simp only [USERTOP, KERNBASE, PGSIZE] at *
        omega
      rw [place]
      refine meets_bind (meets_walk fresh.owned fresh.isDir (inside_of_user user)
        (fun _ _ => meets_throw trivial) ?_)
      intro t _ entry
      refine meets_bind (meets_get (meets_bind (meets_modify ?_)))
      rw [← entry]
      have written := fresh.fill user
        (Bytes.move (m.page (pteAddr (m.pte q ((addr + i) / PGSIZE)))) 0
        ((img.readi ((offset + i) % 2 ^ 32) (min (size - i) PGSIZE)).take
        (min (size - i) PGSIZE)).length
        fun k => ((img.readi ((offset + i) % 2 ^ 32) (min (size - i) PGSIZE)).take
          (min (size - i) PGSIZE)).getD k 0)
      refine meets_ite (fun _ => ?_) fun _ => meets_pure written
      refine ih (size - (i + PGSIZE)) ?_ written ?_ rfl
      · simp only [PGSIZE]
        omega
      · simp only [PGSIZE] at *
        omega

theorem Fresh.meets_loaduvm {img : Image} {addr offset size : ℕ} (fresh : Fresh L q sz m₀ m o₀ o)
    (aligned : addr % PGSIZE = 0) (below : addr + size ≤ KERNBASE) :
    Meets (loaduvm img q addr offset size) m (fun _ => True) fun _ m' => Fresh L q sz m₀ m' o₀ o :=
  meets_ite (fun odd => absurd aligned odd) fun _ => fresh.meets_loadLoop aligned rfl below

theorem field_lt (bytes : List Byte) (off : ℕ) : field bytes off 4 < 2 ^ 32 := Bytes.getLE_lt _ _ _

/-- The checks of `exec` on a program header. -/
structure Loadable (bytes : List Byte) (ph : ProgHdr) : Prop where
  whole : bytes.length = ProgHdr.size
  decode : ProgHdr.decode bytes = ph
  type : ph.type = ELF_PROG_LOAD
  file : ph.filesz ≤ ph.memsz
  wraps : ph.vaddr ≤ (ph.vaddr + ph.memsz) % 2 ^ 32
  aligned : ph.vaddr % PGSIZE = 0

theorem Loadable.end_lt {bytes : List Byte} {ph : ProgHdr} (loadable : Loadable bytes ph) :
    ph.vaddr + ph.memsz < 2 ^ 32 := by
  have vaddr : ph.vaddr < 2 ^ 32 := loadable.decode ▸ field_lt _ _
  have memsz : ph.memsz < 2 ^ 32 := loadable.decode ▸ field_lt _ _
  have wraps := loadable.wraps
  omega

/-- The first header of the loop: it ends the loop, or is passed over, or is loaded. -/
theorem Fresh.meets_loadSegments_step {img : Image} {off : ℕ} {Q : Option ℕ → Mem → Prop}
    (fresh : Fresh L q sz m₀ m o₀ o) (bad : ∀ m', Ends L q m₀ o₀ none m' → Q none m')
    (skip : (img.readi off ProgHdr.size).length = ProgHdr.size →
      (ProgHdr.decode (img.readi off ProgHdr.size)).type ≠ ELF_PROG_LOAD →
      Meets (loadSegments L img q n ((off + ProgHdr.size) % 2 ^ 32) sz) m E Q)
    (load : ∀ ph m' o', Loadable (img.readi off ProgHdr.size) ph → ph.vaddr + ph.memsz < KERNBASE →
      allocuvm L q sz (ph.vaddr + ph.memsz) m = .ok (max sz (ph.vaddr + ph.memsz), m') →
      Fresh L q (max sz (ph.vaddr + ph.memsz)) m₀ m' o₀ o' →
      Meets (loaduvm img q ph.vaddr ph.off ph.filesz) m' E fun loaded m'' =>
        if loaded then Meets (loadSegments L img q n ((off + ProgHdr.size) % 2 ^ 32)
          (max sz (ph.vaddr + ph.memsz))) m'' E Q
        else Q none m'') :
    Meets (loadSegments L img q (n + 1) off sz) m E Q := by
  rw [loadSegments]
  generalize img.readi off ProgHdr.size = bytes at skip load ⊢
  have stop : ∀ {m'}, Ends L q m₀ o₀ none m' → Meets (return none : MemProg (Option ℕ)) m' E Q :=
    fun ends => meets_pure (bad _ ends)
  have here : Ends L q m₀ o₀ none m := ⟨sz, o, fresh, nofun⟩
  refine meets_ite (fun _ => stop here) fun whole => ?_
  refine meets_ite (fun other => skip (not_not.mp whole) other) fun type =>
    meets_ite (fun _ => stop here) fun file => ?_
  refine meets_ite (fun _ => stop here) fun wraps => ?_
  have vaddr : (ProgHdr.decode bytes).vaddr < 2 ^ 32 := field_lt _ _
  have memsz : (ProgHdr.decode bytes).memsz < 2 ^ 32 := field_lt _ _
  generalize decode : ProgHdr.decode bytes = ph at *
  have total : (ph.vaddr + ph.memsz) % 2 ^ 32 = ph.vaddr + ph.memsz := by omega
  rw [total]
  refine meets_bind (Meets.run
    (fresh.meets_allocuvm (fun m' o' fresh' _ => ?_) fun m' o' small fresh' _ => ?_))
  · exact fun _ => meets_ite (fun _ => stop ⟨sz, o', fresh', nofun⟩) fun nonzero =>
      absurd rfl nonzero
  · intro allocated
    refine meets_ite (fun _ => stop ⟨_, o', fresh', nofun⟩) fun _ => ?_
    refine meets_ite (fun _ => stop ⟨_, o', fresh', nofun⟩) fun aligned => ?_
    have loadable : Loadable bytes ph :=
      ⟨not_not.mp whole, decode, not_not.mp type, Nat.not_lt.mp file, Nat.not_lt.mp wraps,
        not_not.mp aligned⟩
    refine (load ph m' o' loadable small allocated fresh').bind fun loaded m'' next => ?_
    cases loaded with
    | true => exact next
    | false => exact meets_pure next

/-- The loop over the program headers. -/
theorem Fresh.meets_loadSegments {img : Image} {off : ℕ} (fresh : Fresh L q sz m₀ m o₀ o) :
    Meets (loadSegments L img q n off sz) m (fun _ => True) (Ends L q m₀ o₀) := by
  induction n generalizing m o off sz with
  | zero => exact meets_pure ⟨sz, o, fresh, fun s mem => (Option.some.inj mem).symm⟩
  | succ n ih =>
      refine fresh.meets_loadSegments_step (fun _ => id) (fun _ _ => ih fresh) ?_
      intro ph m' o' loadable small _ fresh'
      have fits : ph.vaddr + ph.filesz ≤ KERNBASE := by
        have file := loadable.file
        omega
      refine (fresh'.meets_loaduvm loadable.aligned fits).mono (fun _ => id)
        fun loaded m'' fresh'' => ?_
      cases loaded with
      | true => exact ih fresh''
      | false => exact ⟨_, o', fresh'', nofun⟩

/-! ## The stack -/

section ClearUser

variable {e : ℕ}

/-- The mask of `clearpteu` spares everything but one flag. -/
theorem clearUser_spares (word : e < 2 ^ 32) : pteAddr (e &&& (2 ^ 32 - 1 - PTE_U)) = pteAddr e ∧
    present (e &&& (2 ^ 32 - 1 - PTE_U)) = present e := by
  constructor
  · have high : e / 2 ^ 12 < 2 ^ 20 := by omega
    change (e &&& (2 ^ 32 - 1 - PTE_U)) / 2 ^ 12 = e / 2 ^ 12
    rw [Nat.and_div_two_pow, show (2 ^ 32 - 1 - PTE_U) / 2 ^ 12 = 2 ^ 20 - 1 by decide,
      Nat.and_two_pow_sub_one_eq_mod, Nat.mod_eq_of_lt high]
  · rw [present, present, Nat.testBit_and, show Nat.testBit (2 ^ 32 - 1 - PTE_U) 0 = true by
      decide, Bool.and_true]

/-- `clearpteu` makes the guard page. -/
theorem Fresh.meets_clearpteu {uva : ℕ} (fresh : Fresh L q sz m₀ m o₀ o)
    (aligned : uva = v * PGSIZE) (below : v < USERTOP) (mapped : m.pte q v ≠ 0) :
    Meets (clearpteu q uva) m E fun _ m' => Fresh L q sz m₀ m' o₀ o ∧
      m'.pte q v = m.pte q v &&& (2 ^ 32 - 1 - PTE_U) ∧ ∀ w ≠ v, w < 2 ^ 20 →
        m'.pte q w = m.pte q w := by
  have inside := inside_of_user below
  rw [clearpteu, aligned]
  refine meets_bind (meets_walk fresh.owned fresh.isDir inside
    (fun _ zero => absurd zero mapped) ?_)
  intro t table entry
  refine meets_modify ?_
  rw [← entry]
  have word : m.pte q v < 2 ^ 32 := by
    rw [entry]
    exact Bytes.getLE_lt _ _ _
  rcases clearUser_spares word with ⟨page, here⟩
  have word' : m.pte q v &&& (2 ^ 32 - 1 - PTE_U) < 2 ^ 32 := Nat.and_lt_two_pow _ (by decide)
  generalize cleared : m.pte q v &&& (2 ^ 32 - 1 - PTE_U) = e at page here word' ⊢
  have zero : m.pte q v = 0 → e = 0 := by
    intro none
    rw [← cleared, none, Nat.zero_and]
  have ok : EntryOk m.smAddr o q v e := by
    rcases fresh.owned.entryOk fresh.isDir inside with none | ⟨was, low, _⟩
    · exact Or.inl (zero none)
    · refine Or.inr ⟨here.trans was,
        fun user => ?_, fun above => absurd below (Nat.not_lt.mpr above)⟩
      rw [page]
      exact low user
  have only : ∀ r, o r = .user q v → v < USERTOP ∧ present e = true ∧ pteAddr e = r := by
    intro r user
    rcases fresh.owned.user r q v user with ⟨_, low, was, target⟩
    exact ⟨low, here.trans was, page.trans target⟩
  rcases fresh.owned.edited_setPte table inside word' (fun _ => Or.inl rfl) (fun _ => id) ok only
    with
    ⟨edited, written⟩
  have other : ∀ v' ≠ v, v' < 2 ^ 20 → (m.setEntry t (v % NPTENTRIES) e).pte q v' = m.pte q v' :=
    fun v' ne => edited.pte v' (by simpa using ne)
  refine ⟨⟨⟨fresh.toBuilding.edited edited, fresh.small, fresh.positive,
    fun v' below' => ?_, fun v' mem => ?_,
    fun v' after below' => ?_⟩, ?_, fresh.lent_kept edited.kept⟩, written, other⟩
  · by_cases same : v' = v
    · subst same
      rw [Private, written, page]
      exact (fresh.own v' below').imp_left zero
    · rw [Private, other v' same (inside_of_user below')]
      exact fresh.own v' below'
  · have mapped := fresh.full v' mem
    by_cases same : v' = v
    · subst same
      rw [written]
      refine ne_zero_of_present (here.trans ?_)
      exact fresh.owned.present_of_ne_zero fresh.isDir inside mapped
    · have bound := (Set.mem_Ico.mp mem).2.trans_le (pages_le_usertop fresh.small)
      rwa [other v' same (inside_of_user bound)]
  · have none := fresh.above v' after below'
    by_cases same : v' = v
    · subst same
      rw [written]
      exact zero none
    · rwa [other v' same (inside_of_user below')]
  · by_cases same : 0 = v
    · subst same
      rw [written]
      exact zero fresh.first
    · rw [other 0 same (by decide)]
      exact fresh.first

end ClearUser

/-- `uva2ka` finds user pages only. -/
theorem Fresh.meets_uva2ka {Q : Option ℕ → Mem → Prop} (fresh : Fresh L q sz m₀ m o₀ o)
    (inside : v < 2 ^ 20) (none : Q none m)
    (some : v < USERTOP → Q (some (pteAddr (m.pte q v))) m) :
    Meets (uva2ka q (v * PGSIZE)) m (fun _ => True) Q := by
  refine meets_bind (meets_walk fresh.owned fresh.isDir inside (fun _ _ => meets_throw trivial) ?_)
  intro t _ entry
  refine meets_bind (meets_get ?_)
  rw [← entry]
  refine meets_ite (fun both => meets_pure (some ?_)) fun _ => meets_pure none
  by_contra above
  rcases fresh.owned.entryOk fresh.isDir inside with zero | ⟨_, _, high⟩
  · rw [zero] at both
    cases both.1
  · rw [high (Nat.not_lt.mp above)] at both
    cases both.2

/-- `copyout` keeps the new image. -/
theorem Fresh.meets_copyout {va : ℕ} {bytes : List Byte} (fresh : Fresh L q sz m₀ m o₀ o)
    (word : va < 2 ^ 32) :
    Meets (copyout q va bytes) m (fun _ => True) fun _ m' => Fresh L q sz m₀ m' o₀ o := by
  induction length : bytes.length using Nat.strong_induction_on generalizing m va bytes with
  | _ length ih =>
      have inside : va / PGSIZE < 2 ^ 20 := by
        simp only [PGSIZE]
        omega
      rw [copyout]
      split
      case isTrue => exact meets_pure fresh
      case isFalse more =>
        refine meets_bind (fresh.meets_uva2ka inside (meets_pure fresh) fun user => ?_)
        refine meets_bind (meets_modify ?_)
        have written := fresh.fill user (Bytes.move (m.page (pteAddr (m.pte q (va / PGSIZE))))
          (va - PGROUNDDOWN va) (min (PGSIZE - (va - PGROUNDDOWN va)) bytes.length) fun j =>
          bytes.getD j 0)
        refine ih _ ?_ written (Nat.mod_lt _ (by decide)) rfl
        have offset : va - PGROUNDDOWN va < PGSIZE := by
          simp only [PGROUNDDOWN, PGSIZE]
          omega
        rw [List.length_drop]
        omega

/-- The strings and the rest of the stack. -/
theorem Fresh.meets_pushArgs {argv : List (List Byte)} {sp : ℕ} {ustack : List ℕ}
    (fresh : Fresh L q sz m₀ m o₀ o) :
    Meets (pushArgs q argv sp ustack) m (fun _ => True) fun _ m' => Fresh L q sz m₀ m' o₀ o := by
  induction argv generalizing m sp ustack with
  | nil => exact meets_pure fresh
  | cons arg rest ih =>
      rw [pushArgs]
      refine meets_ite (fun _ => meets_pure fresh) fun _ => ?_
      have word : (sp + 2 ^ 32 - (arg.length + 1) % 2 ^ 32) % 2 ^ 32 / 4 * 4 < 2 ^ 32 := by omega
      refine (fresh.meets_copyout word).bind fun copied m' fresh' => ?_
      exact meets_ite (fun _ => ih fresh') fun _ => meets_pure fresh'

theorem Fresh.meets_pushStack {sp : ℕ} {args : List ℕ} (fresh : Fresh L q sz m₀ m o₀ o) :
    Meets (pushStack q sp args) m (fun _ => True) fun _ m' => Fresh L q sz m₀ m' o₀ o := by
  refine (fresh.meets_copyout (Nat.mod_lt _ (by decide))).bind fun copied m' fresh' => ?_
  exact meets_ite (fun _ => meets_pure fresh') fun _ => meets_pure fresh'

attribute [local irreducible] allocuvm

/-- The user stack is the last page, and the page before it is not the user's. -/
structure Guarded (m : Mem) (q sz : ℕ) : Prop where
  aligned : sz % PGSIZE = 0
  large : 3 * PGSIZE ≤ sz
  here : present (m.pte q (sz / PGSIZE - 1)) = true
  user : userBit (m.pte q (sz / PGSIZE - 1)) = true
  guard : userBit (m.pte q (sz / PGSIZE - 2)) = false

/-- Making the stack fails for want of addresses, or of memory. -/
def NoStack (q loaded : ℕ) (m : Mem) : Prop :=
  (pages loaded + 2) * PGSIZE < KERNBASE → ∀ S : Finset ℕ,
    (∀ v ∈ Set.Ico (pages loaded) (pages loaded + 2), v / NPTENTRIES ∈ S) → Short S q 2 m

/-- Two pages are added, and the lower one is the guard. -/
theorem Fresh.meets_makeStack (fresh : Fresh L q sz m₀ m o₀ o) :
    Meets (makeStack L q sz) m E fun r m' => (Ends L q m₀ o₀ r m' ∧ ∀ s ∈ r, Guarded m' q s) ∧
      (r = none → NoStack q sz m) := by
  have small := fresh.small
  have some : 0 < pages sz := Fresh.pages_pos fresh.positive
  have rounded := fresh.roundUp
  rw [makeStack, PGROUNDUP_eq small]
  simp only [NoStack]
  generalize pages sz = w at some rounded ⊢
  have grows : max (w * PGSIZE) (w * PGSIZE + 2 * PGSIZE) = (w + 2) * PGSIZE := by
    simp only [PGSIZE]
    omega
  have count : pages (w * PGSIZE + 2 * PGSIZE) = w + 2 ∧ pages (w * PGSIZE) = w := by
    simp only [pages, PGSIZE]
    omega
  have larger : w * PGSIZE ≤ w * PGSIZE + 2 * PGSIZE := Nat.le_add_right _ _
  rw [Nat.add_mul]
  generalize w * PGSIZE + 2 * PGSIZE = n at grows count larger ⊢
  refine meets_bind (rounded.meets_allocuvm (fun m' o' fresh' short => ?_)
    fun m' o' below fresh' grown => ?_)
  · rw [count.1, count.2, Nat.add_sub_cancel_left] at short
    refine meets_ite (fun _ =>
      meets_pure ⟨⟨⟨_, o', fresh', (fun _ mem => by cases mem)⟩, (fun _ mem => by cases mem)⟩,
      fun _ => short⟩) fun nonzero => ?_
    exact absurd rfl nonzero
  · have first : (w + 2) * PGSIZE - 2 * PGSIZE = w * PGSIZE := by
      simp only [PGSIZE]
      omega
    have grown := grown larger
    rw [count.1, count.2] at grown
    rw [grows] at fresh' ⊢
    have user : w < USERTOP := by
      simp only [USERTOP, KERNBASE, PGSIZE] at *
      omega
    refine meets_ite (fun zero => ?_) fun _ => ?_
    · simp only [PGSIZE] at zero
      omega
    rw [first]
    have mapped : m'.pte q w ≠ 0 :=
      ne_zero_of_present (grown.present
        (Set.mem_Ico.mpr ⟨le_rfl, Nat.lt_add_of_pos_right (by decide)⟩))
    refine (fresh'.meets_clearpteu rfl user mapped).bind fun _ m'' cleared => ?_
    rcases cleared with ⟨fresh'', guard, others⟩
    refine meets_pure ⟨⟨⟨_, o', fresh'', fun s mem => (Option.some.inj mem).symm⟩, ?_⟩,
      (by rintro ⟨⟩)⟩
    rintro s ⟨⟩
    have top : (w + 2) * PGSIZE / PGSIZE = w + 2 := Nat.mul_div_cancel _ (by decide)
    have kept : m''.pte q (w + 1) = m'.pte q (w + 1) := by
      refine others _ (Nat.succ_ne_self w) ?_
      simp only [USERTOP, KERNBASE, PGSIZE] at user
      omega
    have stack : w + 1 ∈ Set.Ico w (w + 2) := Set.mem_Ico.mpr ⟨Nat.le_succ w, Nat.lt_succ_self _⟩
    refine ⟨Nat.mul_mod_left _ _, Nat.mul_le_mul_right _ (by omega), ?_, ?_, ?_⟩
    · rw [top, Nat.add_sub_assoc (by decide), kept]
      exact grown.present stack
    · rw [top, Nat.add_sub_assoc (by decide), kept]
      rcases grown.mapped _ stack with ⟨p, pte, _⟩
      rw [pte, userBit, Nat.testBit_or, Nat.testBit_or, show UVMFLAGS.testBit 2 = true by
        decide, Bool.or_true, Bool.true_or]
    · rw [top, Nat.add_sub_cancel, guard, userBit, Nat.testBit_and,
        show Nat.testBit (2 ^ 32 - 1 - PTE_U) 2 = false by decide, Bool.and_false]

theorem Fresh.meets_copyArgs {argv : List (List Byte)} (fresh : Fresh L q sz m₀ m o₀ o) :
    Meets (copyArgs q sz argv) m (fun _ => True) fun _ m' => Fresh L q sz m₀ m' o₀ o := by
  refine fresh.meets_pushArgs.bind fun r m' fresh' => ?_
  cases r with
  | none => exact meets_pure fresh'
  | some stack => exact fresh'.meets_pushStack

/-! ## The image -/

attribute [local irreducible] makeStack

/-- Where `fillSpace` ends. -/
theorem Fresh.meets_fillSpace {img : Image} {elf : ElfHdr} {argv : List (List Byte)}
    (fresh : Fresh L q PGSIZE m₀ m o₀ o) :
    Meets (fillSpace L img q elf argv) m (fun _ => True) fun r m' =>
      ∃ sz o', Fresh L q sz m₀ m' o₀ o' ∧
      ∀ p ∈ r, p.1 = sz := by
  rw [fillSpace]
  refine fresh.meets_loadSegments.bind fun r m₁ loaded => ?_
  rcases loaded with ⟨loaded, o₁, fresh₁, size⟩
  cases r with
  | none => exact meets_pure ⟨loaded, o₁, fresh₁, nofun⟩
  | some _ =>
      cases size _ rfl
      refine fresh₁.meets_makeStack.bind fun r m₂ made => ?_
      rcases made with ⟨⟨⟨sz, o₂, fresh₂, size⟩, _⟩, _⟩
      cases r with
      | none => exact meets_pure ⟨sz, o₂, fresh₂, nofun⟩
      | some _ =>
          cases size _ rfl
          refine fresh₂.meets_copyArgs.bind fun r m₃ fresh₃ => ?_
          cases r with
          | none => exact meets_pure ⟨sz, o₂, fresh₃, nofun⟩
          | some sp => exact meets_pure ⟨sz, o₂, fresh₃, by rintro _ ⟨⟩; rfl⟩

/-! ## Giving up -/

/-- The same pages are free and the others hold what they held. -/
structure Restituted (L : Link) (m m' : Mem) (o : ℕ → Owner) : Prop where
  owned : Owned L m' o
  aside : Aside m m' o o

theorem Fresh.lt_pages (fresh : Fresh L q sz m₀ m o₀ o) (user : o p = .user q v) :
    v < pages sz := by
  rcases fresh.owned.user p q v user with ⟨_, below, here, _⟩
  by_contra above
  rw [fresh.above v (Nat.not_lt.mp above) below] at here
  cases here

/-- There is less memory than addresses below the shared pages. -/
theorem Fresh.pages_le (fresh : Fresh L q sz m₀ m o₀ o) : pages sz ≤ LASTPAGE + 1 := by
  have owner : ∀ v ∈ Finset.Ico 1 (pages sz), o (pteAddr (m.pte q v)) = .user q v := by
    intro v mem
    rw [Finset.mem_Ico] at mem
    have below := mem.2.trans_le (pages_le_usertop fresh.small)
    exact (fresh.own v below).resolve_left (fresh.full v (Set.mem_Ico.mpr mem))
  have count : (Finset.Ico 1 (pages sz)).card ≤ (Finset.range LASTPAGE).card := by
    refine Finset.card_le_card_of_injOn (fun v => pteAddr (m.pte q v)) ?_ ?_
    · intro v mem
      have known : o (pteAddr (m.pte q v)) ≠ .outside := by
        rw [owner v mem]
        nofun
      exact Finset.mem_coe.mpr (Finset.mem_range.mpr ((fresh.owned.range _).mp known).2)
    · intro v mem w mem' same
      have both := owner v mem
      rw [show pteAddr (m.pte q v) = pteAddr (m.pte q w) from same, owner w mem'] at both
      cases both
      rfl
  rw [Nat.card_Ico, Finset.card_range] at count
  omega

/-- Giving up an address space gives back all that went into it. -/
theorem Fresh.meets_freevm (fresh : Fresh L q sz m₀ m o₀ o) (quiescent : Quiescent o₀) :
    Meets (freevm L q) m E fun _ m' => Restituted L m₀ m' o₀ := by
  refine Vm.meets_freevm fresh.owned fresh.isDir fun m' o' freed below => ?_
  have all : o' = o₀ := by
    refine funext ((fresh.lent quiescent).returned fresh.before fresh.free freed fun r belongs =>
      ?_)
    refine below r belongs fun v user => (fresh.lt_pages user).trans_le (fresh.pages_le.trans ?_)
    decide
  have aside := fresh.aside.freed fresh.before fresh.loose freed
  rw [all] at aside
  exact ⟨all ▸ freed.owned, aside⟩

/-- `exec` has a new address space, or none at all. -/
theorem meets_execImage {img : Image} {argv : List (List Byte)}
    {Q : Option (ℕ × ℕ × ℕ) → Mem → Prop} (owned : Owned L m o)
    (failure : ∀ m' o', Owned L m' o' → Aside m m' o o' → Q none m')
    (success : ∀ q sz sp m' o', Filled L q sz m m' o o' → Q (some (q, sz, sp)) m') :
    Meets (execImage L img argv) m (fun _ => True) Q := by
  have bad : Meets (return none : MemProg (Option (ℕ × ℕ × ℕ))) m (fun _ => True) Q :=
    meets_pure (failure m o owned .refl)
  refine meets_ite (fun _ => bad) fun _ => meets_ite (fun _ => bad) fun _ => ?_
  refine meets_bind (meets_setupkvm owned
    (fun m' o' owned' aside _ _ _ => meets_pure (failure m' o' owned' aside)) ?_)
  intro q m₁ o₁ kvm lent
  refine (Fresh.of_kvm kvm owned lent).meets_fillSpace.bind fun r m₂ outcome => ?_
  rcases outcome with ⟨sz, o₂, fresh, size⟩
  rcases r with _ | ⟨sz', sp⟩
  · refine meets_bind (meets_freevm fresh.owned fresh.isDir fun m₃ o₃ freed _ => meets_pure ?_)
    exact failure m₃ o₃ freed.owned (fresh.aside.freed owned fresh.loose freed)
  · cases size _ rfl
    exact meets_pure (success q _ sp m₂ o₂ fresh.toFilled)

end Xv6.Vm
