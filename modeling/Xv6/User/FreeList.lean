import Xv6.Lib.Extents
import Xv6.User.Umalloc
import Xv6.Vm.Memory

/-!
# The free list

The free blocks are linked in the order of their addresses, and the last of them to `base`, which is
in front of them all. The loop of `free` ends, wherever in this ring it begins, at the block in
front of the one that is freed, and `free` then puts that block behind it and joins it with the
neighbours that it touches.
-/

namespace Xv6.User

open Prog Extents

variable {σ : Type} {os : Os σ} {s : Heap σ} {E : Stop → Prop}

/-! ## Access -/

/-- Both fields of the header at `p` can be accessed. -/
def Accessible (os : Os σ) (k : σ) (p : ℕ) :
    Prop := os.mapped k p = true ∧ os.mapped k (p + 4) = true

section Access

variable {p v : ℕ} (safe : E .fault ∨ Accessible os s.os p)
include safe

theorem meets_ptr {Q : ℕ → Heap σ → Prop} (post : Q (s.header p).ptr s) :
    Meets (ptr os p) s E Q := by
  refine meets_bind (meets_bind
    (meets_get (meets_ite (fun unmapped => meets_throw ?_) fun _ => meets_pure post)))
  rcases safe with stop | accessible
  · exact stop
  · exact absurd (accessible.1.symm.trans unmapped) (by decide)

theorem meets_size {Q : ℕ → Heap σ → Prop} (post : Q (s.header p).size s) :
    Meets (size os p) s E Q := by
  refine meets_bind (meets_bind
    (meets_get (meets_ite (fun unmapped => meets_throw ?_) fun _ => meets_pure post)))
  rcases safe with stop | accessible
  · exact stop
  · exact absurd (accessible.2.symm.trans unmapped) (by decide)

theorem meets_setPtr {Q : Unit → Heap σ → Prop}
    (post : Q () { s with header := Function.update s.header p { s.header p with ptr := v } }) :
    Meets (setPtr os p v) s E Q := by
  refine meets_bind (meets_bind
    (meets_get (meets_ite (fun unmapped => meets_throw ?_) fun _ => meets_modify post)))
  rcases safe with stop | accessible
  · exact stop
  · exact absurd (accessible.1.symm.trans unmapped) (by decide)

theorem meets_setSize {Q : Unit → Heap σ → Prop}
    (post : Q () { s with header := Function.update s.header p { s.header p with size := v } }) :
    Meets (setSize os p v) s E Q := by
  refine meets_bind (meets_bind
    (meets_get (meets_ite (fun unmapped => meets_throw ?_) fun _ => meets_modify post)))
  rcases safe with stop | accessible
  · exact stop
  · exact absurd (accessible.2.symm.trans unmapped) (by decide)

end Access

/-! ## Links -/

/-- The address of the first block, or `e` if there is none. -/
def first (xs : List Extent) (e : ℕ) : ℕ := (xs.head?.map Extent.lo).getD e

/-- The headers of the blocks hold their sizes, and each of them points to the next, the last one to
`e`. -/
def Links (header : ℕ → Header) : List Extent → ℕ → Prop
  | [], _ => True
  | x :: xs, e => header x.lo = ⟨first xs e, x.size⟩ ∧ Links header xs e

variable {header header' : ℕ → Header} {xs ys : List Extent} {x q : Extent} {e : ℕ}

theorem first_append (xs ys : List Extent) (e : ℕ) :
    first (xs ++ ys) e = first xs (first ys e) := by
  cases xs <;> rfl

theorem links_append :
    Links header (xs ++ ys) e ↔ Links header xs (first ys e) ∧ Links header ys e := by
  induction xs with
  | nil => exact (iff_of_eq (true_and _)).symm
  | cons x xs ih => rw [List.cons_append, Links, Links, ih, first_append, and_assoc]

theorem links_congr (same : ∀ x ∈ xs, header' x.lo = header x.lo) (links : Links header xs e) :
    Links header' xs e := by
  induction xs with
  | nil => trivial
  | cons x xs ih =>
      refine ⟨(same x List.mem_cons_self).trans links.1,
        ih (fun y mem => same y (List.mem_cons_of_mem x mem)) links.2⟩

theorem Links.header_eq (links : Links header (xs ++ x :: ys) e) :
    header x.lo = ⟨first ys e, x.size⟩ :=
  (links_append.mp links).2.1

theorem Links.size_eq (links : Links header xs e) (mem : x ∈ xs) : (header x.lo).size = x.size := by
  rcases List.append_of_mem mem with ⟨before, after, rfl⟩
  rw [links.header_eq]

/-! ## The search -/

section Search

variable {bp : ℕ}

/-- The loop of `free` stops at `p`. -/
def Stops (bp p next : ℕ) : Prop := p < bp ∧ bp < next ∨ next ≤ p ∧ (p < bp ∨ bp < next)

theorem search_stops {Q : ℕ → Heap σ → Prop} {fuel p : ℕ} (safe : E .fault ∨ Accessible os s.os p)
    (enough : E .diverges ∨ 0 < fuel) (stops : Stops bp p (s.header p).ptr) (post : Q p s) :
    Meets (search os bp fuel p) s E Q := by
  cases fuel with
  | zero => exact meets_throw (enough.resolve_right (lt_irrefl 0))
  | succ fuel =>
      refine meets_bind (meets_ptr safe (meets_ite (fun _ => meets_pure post) fun between => ?_))
      rw [if_pos (stops.resolve_left between)]
      exact meets_pure post

/-- The search of `free` passes over the blocks where it does not stop. -/
theorem search_skip {Q : ℕ → Heap σ → Prop} {fuel : ℕ} (links : Links s.header xs e)
    (safe : E .fault ∨ ∀ x ∈ xs, Accessible os s.os x.lo) (enough : E .diverges ∨ xs.length < fuel)
    (goesOn : ∀ x ∈ xs, ¬Stops bp x.lo (s.header x.lo).ptr)
    (rest : ∀ fuel, E .diverges ∨ 0 < fuel → Meets (search os bp fuel e) s E Q) :
    Meets (search os bp fuel (first xs e)) s E Q := by
  induction xs generalizing fuel with
  | nil => exact rest fuel enough
  | cons x xs ih =>
      cases fuel with
      | zero => exact meets_throw (enough.resolve_right (Nat.not_lt_zero _))
      | succ fuel =>
          rcases not_or.mp (goesOn x List.mem_cons_self) with ⟨between, wraps⟩
          refine meets_bind (meets_ptr (safe.imp_right fun all => all x List.mem_cons_self) ?_)
          change Meets (if x.lo < bp ∧ bp < (s.header x.lo).ptr then pure x.lo
            else if (s.header x.lo).ptr ≤ x.lo ∧ (x.lo < bp ∨ bp < (s.header x.lo).ptr) then
            pure x.lo
            else search os bp fuel (s.header x.lo).ptr) s E Q
          rw [if_neg between, if_neg wraps, links.1]
          exact ih links.2 (safe.imp_right fun all y mem => all y (List.mem_cons_of_mem x mem))
            (enough.imp_right Nat.lt_of_succ_lt_succ) fun y mem =>
              goesOn y (List.mem_cons_of_mem x mem)

variable (links : Links s.header (xs ++ q :: ys) (first (xs ++ q :: ys) 0))
  (ascending : (xs ++ q :: ys).Pairwise fun x y => x.lo < y.lo) (above : q.lo < bp)
  (below : ∀ y ∈ ys, bp < y.lo)
include links ascending above below

/-- The search stops at one block only. -/
theorem stops_iff (mem : x ∈ xs ++ q :: ys) : Stops bp x.lo (s.header x.lo).ptr ↔ x = q := by
  rcases List.pairwise_append.mp ascending with ⟨left, right, across⟩
  rcases List.pairwise_cons.mp right with ⟨after, right'⟩
  have base : first (xs ++ q :: ys) 0 ≤ q.lo := by
    cases xs with
    | nil => exact le_rfl
    | cons x xs => exact (across x List.mem_cons_self q List.mem_cons_self).le
  rcases List.mem_append.mp mem with early | late
  · have lower := across x early q List.mem_cons_self
    have other : x ≠ q := fun same => lower.ne (congrArg Extent.lo same)
    refine iff_of_false ?_ other
    rcases List.append_of_mem early with ⟨before, between, rfl⟩
    rw [List.append_assoc, List.cons_append] at links
    rw [links.header_eq, first_append]
    have next : x.lo < first between q.lo ∧ first between q.lo ≤ q.lo := by
      cases between with
      | nil => exact ⟨lower, le_rfl⟩
      | cons z zs =>
          have member : z ∈ before ++ x :: z :: zs :=
            List.mem_append_right _ (List.mem_cons_of_mem x List.mem_cons_self)
          exact ⟨(List.pairwise_cons.mp (List.pairwise_append.mp left).2.1).1 z List.mem_cons_self,
            (across z member q List.mem_cons_self).le⟩
    change ¬Stops bp x.lo (first between q.lo)
    simp only [Stops]
    omega
  · rcases List.mem_cons.mp late with rfl | later
    · refine iff_of_true ?_ rfl
      rw [links.header_eq]
      cases ys with
      | nil => exact Or.inr ⟨base, Or.inl above⟩
      | cons z zs => exact Or.inl ⟨above, below z List.mem_cons_self⟩
    · have lower := below x later
      have other : x ≠ q := by
        rintro rfl
        omega
      refine iff_of_false ?_ other
      rcases List.append_of_mem later with ⟨before, after', rfl⟩
      have whole : xs ++ q :: (before ++ x :: after') = (xs ++ q :: before) ++ x :: after' := by
        simp
      rw [whole] at links
      rw [links.header_eq]
      cases after' with
      | nil =>
          rw [← whole]
          change ¬Stops bp x.lo (first (xs ++ q :: (before ++ [x])) 0)
          simp only [Stops]
          omega
      | cons z zs =>
          have next := (List.pairwise_cons.mp (List.pairwise_append.mp right').2.1).1 z
            List.mem_cons_self
          change ¬Stops bp x.lo z.lo
          simp only [Stops]
          omega

/-- The search finds the block in front of `bp`. -/
theorem search_meets {Q : ℕ → Heap σ → Prop} {fuel p : ℕ} (roving : ∃ y ∈ xs ++ q :: ys, p = y.lo)
    (safe : E .fault ∨ ∀ x ∈ xs ++ q :: ys, Accessible os s.os x.lo)
    (enough : E .diverges ∨ (xs ++ q :: ys).length < fuel) (post : Q q.lo s) :
    Meets (search os bp fuel p) s E Q := by
  have stops := fun x mem => stops_iff (x := x) links ascending above below mem
  have found : ∀ fuel, E .diverges ∨ 0 < fuel → Meets (search os bp fuel q.lo) s E Q := by
    intro fuel enough
    have mem : q ∈ xs ++ q :: ys := List.mem_append_right _ List.mem_cons_self
    exact search_stops (safe.imp_right fun all => all q mem) enough ((stops q mem).mpr rfl) post
  have skip : ∀ zs e, Links s.header zs q.lo → first zs q.lo = e →
    (∀ x ∈ zs, x ∈ xs ++ q :: ys ∧ x ≠ q) →
      zs.length ≤ (xs ++ q :: ys).length → Meets (search os bp fuel e) s E Q := by
    rintro zs e links' rfl others short
    refine search_skip links' (safe.imp_right fun all x mem => all x (others x mem).1)
      (enough.imp_right short.trans_lt) (fun x mem => ?_) found
    rw [stops x (others x mem).1]
    exact (others x mem).2
  have distinct : (xs ++ q :: ys).Nodup :=
    ascending.imp fun less same => less.ne (congrArg Extent.lo same)
  rcases List.nodup_append.mp distinct with ⟨_, distinct', apart⟩
  have notInFront : ∀ x ∈ xs, x ≠ q := fun x mem => apart x mem q List.mem_cons_self
  have notBehind : ∀ x ∈ ys, x ≠ q :=
    fun x mem same => (List.nodup_cons.mp distinct').1 (same ▸ mem)
  have front := (links_append.mp links).1
  rcases roving with ⟨y, mem, rfl⟩
  rcases List.mem_append.mp mem with early | late
  · rcases List.append_of_mem early with ⟨before, between, rfl⟩
    refine skip (y :: between) y.lo (links_append.mp front).2 rfl (fun x inside => ?_)
      (by simp; omega)
    have member : x ∈ before ++ y :: between := List.mem_append_right _ inside
    exact ⟨List.mem_append_left _ member, notInFront x member⟩
  · rcases List.mem_cons.mp late with rfl | later
    · exact found fuel (enough.imp_right (Nat.zero_le _).trans_lt)
    · rcases List.append_of_mem later with ⟨between, after, rfl⟩
      have whole : xs ++ q :: (between ++ y :: after) = (xs ++ q :: between) ++ y :: after := by
        simp
      have back := (links_append.mp (whole ▸ links)).2
      have around : first (xs ++ q :: (between ++ y :: after)) 0 = first xs q.lo := by
        rw [first_append]
        rfl
      rw [← whole, around] at back
      refine skip (y :: after ++ xs) y.lo (links_append.mpr ⟨back, front⟩) rfl (fun x inside => ?_)
        (by simp; omega)
      rcases List.mem_append.mp inside with behind | inFront
      · have member : x ∈ between ++ y :: after := List.mem_append_right _ behind
        exact ⟨List.mem_append_right _ (List.mem_cons_of_mem q member), notBehind x member⟩
      · exact ⟨List.mem_append_left _ inFront, notInFront x inFront⟩

end Search

/-! ## Joining -/

/-- The header of the block `bp` once it has been put behind `q`, and joined with the block behind
it. -/
def joinNext (header : ℕ → Header) (bp q : ℕ) : Header :=
  let next := (header q).ptr
  if plus bp (header bp).size = next then
    ⟨(header next).ptr, ((header bp).size + (header next).size) % 2 ^ 32⟩
  else ⟨next, (header bp).size⟩

/-- The header of `q` then, joined with `bp` if they touch. -/
def joinPrevious (header : ℕ → Header) (bp q : ℕ) : Header :=
  let b := joinNext header bp q
  if plus q (header q).size = bp then ⟨b.ptr, ((header q).size + b.size) % 2 ^ 32⟩
    else ⟨bp, (header q).size⟩

/-- The headers that `free` leaves if its loop ends at `q`. -/
def joined (header : ℕ → Header) (bp q : ℕ) : ℕ → Header :=
  Function.update (Function.update header bp (joinNext header bp q)) q (joinPrevious header bp q)

/-- `free` puts its block behind the one where the search has stopped. -/
theorem free_meets {Q : Unit → Heap σ → Prop} {fuel ap bp q : ℕ}
    (here : (ap + (2 ^ 32 - HEADER)) % 2 ^ 32 = bp)
    (found : ∀ Q : ℕ → Heap σ → Prop, Q q s → Meets (search os bp fuel s.freep) s E Q)
    (other : q ≠ bp) (behind : (s.header q).ptr ≠ bp)
    (safe : E .fault ∨ Accessible os s.os bp ∧ Accessible os s.os q ∧
      Accessible os s.os (s.header q).ptr)
    (post : Q () { s with header := joined s.header bp q, freep := q }) :
    Meets (free os fuel ap) s E Q := by
  have safeB : E .fault ∨ Accessible os s.os bp := safe.imp_right And.left
  have safeQ : E .fault ∨ Accessible os s.os q := safe.imp_right fun all => all.2.1
  have safeN : E .fault ∨ Accessible os s.os (s.header q).ptr := safe.imp_right fun all => all.2.2
  have second : ∀ b : Header, b = joinNext s.header bp q →
      Meets (do
        if plus q (← size os q) = bp then
          setSize os q (((← size os q) + (← size os bp)) % 2 ^ 32)
          setPtr os q (← ptr os bp)
        else setPtr os q bp
        setFreep q) { s with header := Function.update s.header bp b } E Q := by
    rintro b rfl
    have headerQ : Function.update s.header bp (joinNext s.header bp q) q = s.header q :=
      Function.update_of_ne other _ _
    have headerB : Function.update s.header bp (joinNext s.header bp q) bp =
        joinNext s.header bp q := Function.update_self _ _ _
    refine meets_bind (meets_size (by exact safeQ) (meets_ite (fun touch => ?_) fun apart => ?_))
    · simp only [headerQ] at touch
      refine meets_bind (meets_size (by exact safeQ)
        (meets_bind (meets_size (by exact safeB) (meets_bind (meets_setSize (by exact safeQ) ?_)))))
      simp only [headerQ, headerB]
      refine meets_bind (meets_ptr (by exact safeB)
        (meets_bind (meets_setPtr (by exact safeQ) (meets_modify ?_))))
      simp only [Function.update_self, Function.update_of_ne other.symm, Function.update_idem]
      have final : joinPrevious s.header bp q =
          ⟨(joinNext s.header bp q).ptr,
            ((s.header q).size + (joinNext s.header bp q).size) % 2 ^ 32⟩ := if_pos touch
      rw [joined, final] at post
      exact post
    · simp only [headerQ] at apart
      refine meets_bind (meets_setPtr (by exact safeQ) (meets_modify ?_))
      simp only [headerQ]
      have final : joinPrevious s.header bp q = ⟨bp, (s.header q).size⟩ := if_neg apart
      rw [joined, final] at post
      exact post
  rw [free, here]
  refine meets_bind (meets_get (meets_bind (found _ ?_)))
  refine meets_bind (meets_size (by exact safeB)
    (meets_bind (meets_ptr (by exact safeQ) (meets_ite (fun touch => ?_) fun apart => ?_))))
  · refine meets_bind (meets_size (by exact safeB)
      (meets_bind (meets_ptr (by exact safeQ) (meets_bind
      (meets_size (by exact safeN) (meets_bind (meets_setSize (by exact safeB) ?_)))))))
    refine meets_bind (meets_ptr (by exact safeQ) ?_)
    simp only [Function.update_of_ne other]
    refine meets_bind (meets_ptr (by exact safeN) (meets_bind (meets_setPtr (by exact safeB) ?_)))
    simp only [Function.update_self, Function.update_of_ne behind, Function.update_idem]
    exact second _ (if_pos touch).symm
  · refine meets_bind (meets_ptr (by exact safeQ) (meets_bind (meets_setPtr (by exact safeB) ?_)))
    exact second _ (if_neg apart).symm

/-! ## The list -/

/-- Where the blocks can be: the memory from `start` to `limit`, below the kernel and above `base`.
-/
structure Image (base start limit : ℕ) : Prop where
  positive : 0 < base
  below : base + HEADER ≤ start
  start_le : start ≤ limit
  limit_le : limit ≤ Vm.KERNBASE

/-- `freep` points into the ring of `base` and the free blocks, which are not empty, apart from one
another, and in the order of their addresses. -/
structure FreeList (s : Heap σ) (base start limit : ℕ) (xs : List Extent) : Prop where
  links : Links s.header (⟨base, 0⟩ :: xs) base
  apart : Apart HEADER (⟨base, 0⟩ :: xs)
  positive : ∀ x ∈ xs, 0 < x.size
  within : ∀ x ∈ xs, start ≤ x.lo ∧ x.hi HEADER ≤ limit
  roving : ∃ y ∈ ⟨base, 0⟩ :: xs, s.freep = y.lo

theorem lo_lt_of_apart (apart : Apart HEADER xs) : xs.Pairwise fun x y => x.lo < y.lo :=
  apart.imp fun {x _} gap => (x.lo_le_hi HEADER).trans_lt gap

theorem plus_eq {p n : ℕ} (fits : p + HEADER * n < 2 ^ 32) :
    plus p n = p + HEADER * n := Nat.mod_eq_of_lt fits

section Joined

variable {b : Extent} (links : Links header (xs ++ q :: ys) (first (xs ++ q :: ys) 0))
  (fits : ∀ z ∈ xs ++ q :: ys, z.hi HEADER < 2 ^ 32) (size : (header b.lo).size = b.size)
  (bounded : b.size ≤ 2 ^ 29) (apart : b.hi HEADER ≠ first (xs ++ q :: ys) 0)
  (touch : plus b.lo b.size = first ys (first (xs ++ q :: ys) 0) ↔
    b.hi HEADER = first ys (first (xs ++ q :: ys) 0))
include links fits size bounded apart touch

/-- A block is joined to the next one if they touch. -/
theorem joinNext_eq : ∃ n rest, join HEADER b ys = ⟨b.lo, n⟩ :: rest ∧ rest <:+ ys ∧ n ≤ 2 ^ 30 ∧
    joinNext header b.lo q.lo = ⟨first rest (first (xs ++ q :: ys) 0), n⟩ := by
  have next := links.header_eq
  cases ys with
  | nil =>
      refine ⟨b.size, [], rfl, List.suffix_rfl, bounded.trans (by decide), ?_⟩
      rw [joinNext, next, size]
      exact if_neg fun same => apart (touch.mp same)
  | cons y ys =>
      have member : y ∈ xs ++ q :: y :: ys :=
        List.mem_append_right _ (List.mem_cons_of_mem q List.mem_cons_self)
      have split : xs ++ q :: y :: ys = (xs ++ [q]) ++ y :: ys := by simp
      have headerY : header y.lo = ⟨first ys (first (xs ++ q :: y :: ys) 0), y.size⟩ := by
        rw [split] at links ⊢
        exact links.header_eq
      have fitsY := fits y member
      have touch' : plus b.lo b.size = y.lo ↔ b.hi HEADER = y.lo := touch
      rw [joinNext, next, size, join]
      change ∃ n rest, _ ∧ _ ∧ _ ∧ (if plus b.lo b.size = y.lo then _ else _) = _
      by_cases meet : b.hi HEADER = y.lo
      · rw [if_pos meet, if_pos (touch'.mpr meet)]
        simp only [Extent.hi, HEADER] at fitsY
        have sum : b.size + y.size < 2 ^ 32 := by omega
        refine ⟨b.size + y.size, ys, rfl, List.suffix_cons y ys, by omega, ?_⟩
        change Header.mk (header y.lo).ptr ((b.size + (header y.lo).size) % 2 ^ 32) = _
        rw [headerY, Nat.mod_eq_of_lt sum]
      · rw [if_neg meet, if_neg fun same => meet (touch'.mp same)]
        exact ⟨b.size, y :: ys, rfl, List.suffix_rfl, bounded.trans (by decide), rfl⟩

/-- `free` leaves the ring with the block in it. -/
theorem links_joined (ascending : (xs ++ q :: ys).Pairwise fun x y => x.lo < y.lo)
    (lower : q.lo < b.lo) (below : ∀ y ∈ ys, b.lo < y.lo) :
    Links (joined header b.lo q.lo) (xs ++ join HEADER q (join HEADER b ys))
      (first (xs ++ q :: ys) 0) := by
  rcases joinNext_eq links fits size bounded apart touch
    with ⟨n, rest, list, ⟨front, suffix⟩, small, next⟩
  rcases List.pairwise_append.mp ascending with ⟨_, _, across⟩
  have fitsQ := fits q (List.mem_append_right _ List.mem_cons_self)
  have sizeQ : (header q.lo).size = q.size := by rw [links.header_eq]
  have touches : plus q.lo (header q.lo).size = q.hi HEADER := by
    rw [sizeQ]
    exact plus_eq fitsQ
  have atQ : joined header b.lo q.lo q.lo = joinPrevious header b.lo q.lo :=
    Function.update_self _ _ _
  have atB : joined header b.lo q.lo b.lo = joinNext header b.lo q.lo := by
    rw [joined, Function.update_of_ne lower.ne', Function.update_self]
  have elsewhere : ∀ a, a ≠ q.lo → a ≠ b.lo → joined header b.lo q.lo a = header a := by
    intro a notQ notB
    rw [joined, Function.update_of_ne notQ, Function.update_of_ne notB]
  have inFront : Links (joined header b.lo q.lo) xs q.lo := by
    refine links_congr (fun x mem => ?_) (links_append.mp links).1
    have less := across x mem q List.mem_cons_self
    exact elsewhere _ less.ne (less.trans lower).ne
  have behind : Links (joined header b.lo q.lo) rest (first (xs ++ q :: ys) 0) := by
    have later : ∀ e, Links header ys e → Links header rest e := by
      rw [← suffix]
      exact fun e links => (links_append.mp links).2
    refine links_congr (fun y mem => ?_) (later _ (links_append.mp links).2.2)
    have less := below y (suffix ▸ List.mem_append_right front mem)
    exact elsewhere _ (lower.trans less).ne' less.ne'
  rw [list, join, links_append]
  by_cases touch : q.hi HEADER = b.lo
  · have previous : joinPrevious header b.lo q.lo =
        ⟨first rest (first (xs ++ q :: ys) 0), q.size + n⟩ := by
      have sum : q.size + n < 2 ^ 32 := by
        simp only [Extent.hi, HEADER] at fitsQ small
        omega
      rw [joinPrevious, touches, next, sizeQ, Nat.mod_eq_of_lt sum]
      exact if_pos touch
    rw [if_pos touch]
    exact ⟨inFront, atQ.trans previous, behind⟩
  · have previous : joinPrevious header b.lo q.lo = ⟨b.lo, q.size⟩ := by
      rw [joinPrevious, touches, sizeQ]
      exact if_neg touch
    rw [if_neg touch]
    exact ⟨inFront, atQ.trans previous, atB.trans next, behind⟩

end Joined

/-! ## `free` -/

section Free

variable {base start limit fuel : ℕ} {b : Extent}

theorem lo_lt_hi (some : 0 < b.size) : b.lo < b.hi HEADER := by
  simp only [Extent.hi, HEADER]
  omega

/-- The new block goes behind some block of the ring, and the ring still begins with `base`. -/
theorem FreeList.exists_place (image : Image base start limit)
    (list : FreeList s base start limit xs) (some : 0 < b.size) (within : start ≤ b.lo)
    (disjoint : Disjoint (b.bytes HEADER) (covered HEADER xs)) :
    ∃ before q after ys, ⟨base, 0⟩ :: xs = before ++ q :: after ∧ q.hi HEADER ≤ b.lo ∧ q.lo < b.lo ∧
      (∀ y ∈ after, b.hi HEADER ≤ y.lo) ∧ (q.lo = base ∨ q ∈ xs) ∧ (∀ x ∈ ys, 0 < x.size) ∧
      before ++ join HEADER q (join HEADER b after) = ⟨base, 0⟩ :: ys := by
  have lower : base < start := (Nat.lt_add_of_pos_right (by decide)).trans_le image.below
  rcases exists_split (List.pairwise_cons.mp list.apart).2
    (List.forall_mem_cons.mpr ⟨lo_lt_hi some, fun x mem => lo_lt_hi (list.positive x mem)⟩) disjoint
      with
    ⟨front, after, rfl, left, right⟩
  have positive : ∀ x ∈ join HEADER b after, 0 < x.size := fun x mem => size_pos_of_mem_join
    (List.forall_mem_cons.mpr ⟨some,
      fun y mem => list.positive y (List.mem_append_right front mem)⟩) mem
  rcases List.eq_nil_or_concat front with rfl | ⟨front, q, last⟩
  · have apart : ¬base = b.lo := by omega
    refine ⟨[], ⟨base, 0⟩, after, join HEADER b after, rfl, ?_, ?_, right, Or.inl rfl, positive, ?_⟩
    · exact lower.le.trans within
    · exact lower.trans_le within
    · rcases join_eq (u := HEADER) b after with ⟨n, rest, same, _⟩
      rw [same]
      exact if_neg apart
  · rw [List.concat_eq_append] at last
    subst last
    have member : q ∈ front ++ [q] ++ after := by simp
    have above := left q (by simp)
    have qSome := list.positive q member
    refine ⟨⟨base, 0⟩ :: front, q, after, front ++ join HEADER q (join HEADER b after), by
      simp, above,
      (lo_lt_hi qSome).trans_le above, right, Or.inr member, fun x mem => ?_, rfl⟩
    rcases List.mem_append.mp mem with early | late
    · exact list.positive x (by simp [early])
    · exact size_pos_of_mem_join (List.forall_mem_cons.mpr ⟨qSome, positive⟩) late

/-- Every block ends below the end of the address space. -/
theorem FreeList.hi_lt (image : Image base start limit) (list : FreeList s base start limit xs) :
    ∀ z ∈ ⟨base, 0⟩ :: xs, z.hi HEADER < 2 ^ 32 := by
  rcases image with ⟨_, below, start_le, top⟩
  simp only [Vm.KERNBASE] at top
  intro z mem
  rcases List.mem_cons.mp mem with rfl | mem
  · simp only [Extent.hi, HEADER] at *
    omega
  · have := list.within z mem
    omega

/-- `free` puts the block into the list. -/
theorem FreeList.free_meets (image : Image base start limit) (list : FreeList s base start limit xs)
    (some : 0 < b.size) (within : start ≤ b.lo ∧ b.hi HEADER ≤ limit)
    (disjoint : Disjoint (b.bytes HEADER) (covered HEADER xs))
    (size : (s.header b.lo).size = b.size)
    (safe : E .fault ∨ ∀ a, a = base ∨ start ≤ a ∧ a + HEADER ≤ limit → Accessible os s.os a)
    (enough : E .diverges ∨ xs.length + 1 < fuel) :
    Meets (free os fuel (plus b.lo 1)) s E fun _ s' => ∃ ys, FreeList s' base start limit ys ∧
      covered HEADER ys = covered HEADER xs ∪ b.bytes HEADER ∧ (∃ x ∈ ys, b.size ≤ x.size) ∧
        ys.length ≤ xs.length + 1 ∧
      s'.os = s.os ∧ ∀ a, start ≤ a →
        a ∉ covered HEADER xs → a ≠ b.lo → s'.header a = s.header a := by
  rcases list.exists_place image some within.1 disjoint with
    ⟨before, q, after, ys, ring, above, lower, below, place, positive, ring'⟩
  have nodes : ∀ x ∈ ⟨base, 0⟩ :: xs, x.lo = base ∨ start ≤ x.lo ∧ x.lo + HEADER ≤ limit := by
    intro x mem
    rcases List.mem_cons.mp mem with rfl | mem
    · exact Or.inl rfl
    · have := list.within x mem
      have := list.positive x mem
      simp only [Extent.hi, HEADER] at *
      exact Or.inr ⟨by omega, by omega⟩
  have member : q ∈ before ++ q :: after := List.mem_append_right _ List.mem_cons_self
  have front : first (before ++ q :: after) 0 = base := by
    rw [← ring]
    rfl
  have links : Links s.header (before ++ q :: after) (first (before ++ q :: after) 0) := by
    rw [front, ← ring]
    exact list.links
  have apart : Apart HEADER (before ++ q :: after) := ring ▸ list.apart
  have ascending := lo_lt_of_apart apart
  have lowest := lo_lt_hi some
  have accessible : E .fault ∨ ∀ x ∈ before ++ q :: after, Accessible os s.os x.lo := by
    rw [← ring]
    exact safe.imp_right fun all x mem => all x.lo (nodes x mem)
  have top := image.limit_le
  simp only [Vm.KERNBASE] at top
  have fits := list.hi_lt image
  rw [ring] at fits
  have bounds := within.2
  have whole : plus b.lo b.size = b.hi HEADER := plus_eq (bounds.trans_lt (by omega))
  have bounded : b.size ≤ 2 ^ 29 := by
    simp only [Extent.hi, HEADER] at bounds
    omega
  have notBase : b.hi HEADER ≠ first (before ++ q :: after) 0 := by
    have := image.below
    rw [front]
    simp only [HEADER] at *
    omega
  have joins := links_joined links fits size bounded notBase (by rw [whole]) ascending lower
    fun y mem => lowest.trans_le (below y mem)
  rw [front, ring'] at joins
  have covers : covered HEADER ys = covered HEADER xs ∪ b.bytes HEADER := by
    have whole : covered HEADER (before ++ join HEADER q (join HEADER b after)) =
        covered HEADER (before ++ q :: after) ∪ b.bytes HEADER := covered_insert
    have none : (⟨base, 0⟩ : Extent).bytes HEADER = ∅ := Set.Ico_self base
    rw [ring', ← ring, covered_cons, covered_cons, none, Set.empty_union, Set.empty_union] at whole
    exact whole
  refine User.free_meets (q := q.lo) ?_ ?_ lower.ne ?_ ?_
    ⟨ys, ⟨joins, ?_, positive, ?_, ?_⟩, covers, ?_, ?_, rfl, ?_⟩
  · have top := image.limit_le
    have bounds := within.2
    simp only [plus, Vm.KERNBASE, Extent.hi, HEADER] at *
    omega
  · intro Q post
    refine search_meets links ascending lower (fun y mem => lowest.trans_le (below y mem)) ?_
      accessible ?_ post
    · rw [← ring]
      exact list.roving
    · rw [← ring]
      exact enough
  · rw [links.header_eq]
    cases after with
    | nil =>
        rw [front]
        exact ((Nat.lt_add_of_pos_right (by decide)).trans_le (image.below.trans within.1)).ne
    | cons y after => exact (lowest.trans_le (below y List.mem_cons_self)).ne'
  · have last : b.lo + HEADER ≤ limit := by
      have bounds := within.2
      simp only [Extent.hi, HEADER] at *
      omega
    refine safe.imp_right fun all =>
      ⟨all _ (Or.inr ⟨within.1, last⟩), all _ (nodes q (ring ▸ member)), ?_⟩
    · rw [links.header_eq]
      cases after with
      | nil => exact all _ (Or.inl front)
      | cons y after => exact all y.lo (nodes y
        (ring ▸ List.mem_append_right _ (List.mem_cons_of_mem q List.mem_cons_self)))
  · rw [← ring']
    exact apart.insert above below
  · intro x mem
    refine within_of_bytes (lo_lt_hi (positive x mem)) ((bytes_subset mem).trans ?_)
    rw [covers]
    exact Set.union_subset (covered_subset list.within) (Set.Ico_subset_Ico within.1 within.2)
  · rw [← ring']
    rcases join_eq (u := HEADER) q (join HEADER b after) with ⟨n, rest, same, _⟩
    refine ⟨⟨q.lo, n⟩, ?_, rfl⟩
    rw [same]
    exact List.mem_append_right _ List.mem_cons_self
  · have large : ∃ z ∈ join HEADER b after, b.size ≤ z.size :=
      exists_join_ge ⟨b, List.mem_cons_self, le_rfl⟩
    rcases exists_join_ge (u := HEADER) (x := q)
      (large.imp fun z both => ⟨List.mem_cons_of_mem q both.1, both.2⟩) with ⟨z, mem, le⟩
    have mem' : z ∈ ⟨base, 0⟩ :: ys := ring' ▸ List.mem_append_right before mem
    rcases List.mem_cons.mp mem' with rfl | mem'
    · exact absurd (some.trans_le le) (lt_irrefl 0)
    · exact ⟨z, mem', le⟩
  · have lengths := congrArg List.length ring
    have lengths' := congrArg List.length ring'
    have := length_join (u := HEADER) b after
    have := length_join (u := HEADER) q (join HEADER b after)
    simp only [List.length_append, List.length_cons] at *
    omega
  · intro a from_ outside notB
    change joined s.header b.lo q.lo a = s.header a
    have notQ : a ≠ q.lo := by
      rintro rfl
      rcases place with same | old
      · have := image.below
        simp only [HEADER] at this
        omega
      · exact outside ⟨q, old, le_rfl, lo_lt_hi (list.positive q old)⟩
    rw [joined, Function.update_of_ne notQ, Function.update_of_ne notB]

end Free

end Xv6.User
