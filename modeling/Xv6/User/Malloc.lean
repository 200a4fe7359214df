import Xv6.User.FreeList

/-!
# `malloc`

The loop of `malloc` goes round the ring once. If a block is large enough, it gives the end of the
first such block it meets, or the whole of it; else the kernel is asked for memory, which `free`
puts into the list, and a second round finds it.
-/

namespace Xv6.User

open Prog Extents

variable {σ : Type} {os : Os σ} {s : Heap σ} {E : Stop → Prop} {Q : ℕ → Heap σ → Prop}
  {xs ys : List Extent} {v x y : Extent} {inner nunits fuel e p : ℕ}

/-! ## A round -/

/-- The address of the last block, or `v` if there is none. -/
def last (v : ℕ) (xs : List Extent) : ℕ := (xs.getLast?.map Extent.lo).getD v

theorem last_cons (v : ℕ) (x : Extent) (xs : List Extent) : last v (x :: xs) = last x.lo xs := by
  cases xs with
  | nil => rfl
  | cons y ys =>
      rw [last, last, List.getLast?_cons_cons, List.getLast?_cons]
      rfl

theorem last_append (v : ℕ) (xs : List Extent) (x : Extent) : last v (xs ++ [x]) = x.lo := by
  simp [last]

/-- The loop passes over blocks that are too small. -/
theorem loop_skip (links : Links s.header xs e)
    (safe : E .fault ∨ ∀ x ∈ xs, Accessible os s.os x.lo) {k : ℕ}
    (enough : E .diverges ∨ xs.length + k ≤ fuel) (small : ∀ x ∈ xs, x.size < nunits)
    (other : ∀ x ∈ xs, x.lo ≠ s.freep)
    (rest : ∀ fuel, E .diverges ∨ k ≤ fuel →
      Meets (mallocLoop os inner nunits fuel (last p xs) e) s E Q) :
    Meets (mallocLoop os inner nunits fuel p (first xs e)) s E Q := by
  induction xs generalizing fuel p with
  | nil => exact rest fuel (enough.imp_right fun le => by simpa using le)
  | cons x xs ih =>
      cases fuel with
      | zero =>
          refine meets_throw (enough.resolve_right ?_)
          simp only [List.length_cons]
          omega
      | succ fuel =>
          have safeX : E .fault ∨ Accessible os s.os x.lo :=
            safe.imp_right fun all => all x List.mem_cons_self
          have size : ¬nunits ≤ (s.header x.lo).size := by
            rw [links.1]
            exact (small x List.mem_cons_self).not_ge
          refine meets_bind (meets_size safeX ?_)
          change Meets (if nunits ≤ (s.header x.lo).size then _ else do
            if x.lo = (← get).freep then _ else _) s E Q
          rw [if_neg size]
          refine meets_bind (meets_get ?_)
          rw [if_neg (other x List.mem_cons_self)]
          refine meets_bind (meets_ptr safeX ?_)
          rw [links.1]
          refine ih links.2 (safe.imp_right fun all y mem => all y (List.mem_cons_of_mem x mem)) ?_
            (fun y mem => small y (List.mem_cons_of_mem x mem))
              (fun y mem => other y (List.mem_cons_of_mem x mem)) ?_
          · refine enough.imp_right fun le => ?_
            simp only [List.length_cons] at le
            omega
          · rw [last_cons] at rest
            exact rest

/-- Once round the ring, from the block behind `freep` on: the loop comes to a block that is large
enough, with the block in front of it, or else back to `freep`. -/
theorem loop_round {base : ℕ} {zs : List Extent} (list : Links s.header (⟨base, 0⟩ :: zs) base)
    (distinct : (⟨base, 0⟩ :: zs).Pairwise fun x y => x.lo < y.lo) (mem : y ∈ ⟨base, 0⟩ :: zs)
    (roving : s.freep = y.lo) (safe : E .fault ∨ ∀ x ∈ ⟨base, 0⟩ :: zs, Accessible os s.os x.lo)
    {k : ℕ} (enough : E .diverges ∨ zs.length + 1 + k ≤ fuel) (some : 0 < nunits)
    (found : ∀ before v x after fuel, ⟨base, 0⟩ :: zs = before ++ v :: x :: after →
      nunits ≤ x.size → E .diverges ∨ k ≤ fuel →
      Meets (mallocLoop os inner nunits fuel v.lo x.lo) s E Q)
    (none : (∀ x ∈ zs, x.size < nunits) → ∀ fuel p, E .diverges ∨ k ≤ fuel →
      Meets (mallocLoop os inner nunits fuel p y.lo) s E Q) :
    Meets (mallocLoop os inner nunits fuel y.lo (s.header y.lo).ptr) s E Q := by
  rcases List.append_of_mem mem with ⟨before, after, ring⟩
  have precedes : ∀ before x after, ⟨base, 0⟩ :: zs = before ++ x :: after → nunits ≤ x.size →
      ∃ front v, before = front ++ [v] := by
    intro before x after ring fits
    rcases List.eq_nil_or_concat before with rfl | ⟨front, v, same⟩
    · cases ring
      exact absurd fits (Nat.not_le.mpr some)
    · exact ⟨front, v, same.trans List.concat_eq_append⟩
  have start : first before y.lo = base := by
    have head : first (before ++ y :: after) base = base := by
      rw [← ring]
      rfl
    rwa [first_append] at head
  rw [ring] at list distinct safe
  rcases links_append.mp list with ⟨left, next, right⟩
  have around : Links s.header (after ++ before) y.lo := links_append.mpr ⟨start.symm ▸ right, left⟩
  have others : ∀ x ∈ after ++ before, x ∈ before ++ y :: after ∧ x.lo ≠ s.freep := by
    rw [roving]
    rcases List.pairwise_append.mp distinct with ⟨_, distinct', across⟩
    intro x mem
    rcases List.mem_append.mp mem with behind | inFront
    · exact ⟨List.mem_append_right _ (List.mem_cons_of_mem y behind),
        ((List.pairwise_cons.mp distinct').1 x behind).ne'⟩
    · exact ⟨List.mem_append_left _ inFront, (across x inFront y List.mem_cons_self).ne⟩
  have length : (after ++ before).length = zs.length := by
    have := congrArg List.length ring
    simp only [List.length_append, List.length_cons] at *
    omega
  rw [next, ← start, ← first_append]
  cases search : (after ++ before).find? fun x => decide (nunits ≤ x.size) with
  | some x =>
      rcases List.find?_eq_some_iff_append.mp search with ⟨fits, skipped, rest, split, small⟩
      simp only [decide_eq_true_eq, Bool.not_eq_true', decide_eq_false_iff_not, Nat.not_le]
        at fits small
      rw [split] at around others length ⊢
      rw [first_append]
      refine loop_skip (k := k) (links_append.mp around).1
        (safe.imp_right fun all z mem => all z (others z (List.mem_append_left _ mem)).1)
        (enough.imp_right fun le => ?_) small
          (fun z mem => (others z (List.mem_append_left _ mem)).2) fun fuel enough => ?_
      · simp only [List.length_append, List.length_cons] at length
        omega
      · rcases List.append_eq_append_iff.mp split with ⟨middle, rfl, rfl⟩ | ⟨middle, rfl, same⟩
        · have ring' : ⟨base, 0⟩ :: zs = middle ++ x :: (rest ++ y :: after) := by simp [ring]
          rcases precedes middle x _ ring' fits with ⟨front, v, rfl⟩
          rw [← List.append_assoc, last_append]
          exact found front v x (rest ++ y :: after) fuel (by simp [ring']) fits enough
        · cases middle with
          | nil =>
              rw [List.nil_append] at same
              subst same
              rcases precedes [] x _ ring fits with ⟨front, v, none⟩
              exact absurd none.symm (by simp)
          | cons z middle =>
              cases same
              rcases List.eq_nil_or_concat (y :: skipped) with none | ⟨front, v, same⟩
              · cases none
              · rw [List.concat_eq_append] at same
                have end_eq : last y.lo skipped = v.lo := by
                  rw [← last_cons 0 y skipped, same, last_append]
                rw [end_eq]
                refine found (before ++ front) v x middle fuel ?_ fits enough
                rw [ring, ← List.cons_append, same]
                simp
  | none =>
      have small : ∀ x ∈ after ++ before, x.size < nunits := by
        intro x mem
        simpa using List.find?_eq_none.mp search x mem
      refine loop_skip (k := k) around (safe.imp_right fun all z mem => all z (others z mem).1)
        (enough.imp_right fun le => ?_) small
        (fun z mem => (others z mem).2) fun fuel enough => ?_
      · omega
      · by_cases fits : nunits ≤ y.size
        · rcases precedes before y after ring fits with ⟨front, v, rfl⟩
          rw [← List.append_assoc, last_append]
          exact found front v y after fuel (by simp [ring]) fits enough
        · refine none (fun x mem => ?_) fuel _ enough
          have member : x ∈ before ++ y :: after := ring ▸ List.mem_cons_of_mem _ mem
          rcases List.mem_append.mp member with inFront | behind
          · exact small x (List.mem_append_right _ inFront)
          · rcases List.mem_cons.mp behind with rfl | behind
            · exact Nat.not_le.mp fits
            · exact small x (List.mem_append_left _ behind)

/-- The loop comes back to `freep`. -/
theorem loop_asks {k : ℕ} (safe : E .fault ∨ Accessible os s.os s.freep)
    (enough : E .diverges ∨ k + 1 ≤ fuel) (small : (s.header s.freep).size < nunits)
    (asks : Meets (morecore os inner nunits) s E fun p s' => p = 0 ∧ Q 0 s' ∨ p ≠ 0 ∧
      (E .fault ∨ Accessible os s'.os p) ∧ ∀ fuel, E .diverges ∨ k ≤ fuel →
      Meets (mallocLoop os inner nunits fuel p (s'.header p).ptr) s' E Q) :
    Meets (mallocLoop os inner nunits fuel p s.freep) s E Q := by
  cases fuel with
  | zero => exact meets_throw (enough.resolve_right (by omega))
  | succ fuel =>
      refine meets_bind (meets_size safe
        (meets_ite (fun fits => absurd fits small.not_ge) fun _ => ?_))
      refine meets_bind (meets_get (meets_ite (fun _ => ?_) fun other => absurd rfl other))
      refine meets_bind (asks.mono (fun _ stop => stop) ?_)
      rintro p s' (⟨rfl, post⟩ | ⟨nonzero, safe', rest⟩)
      · rw [if_pos rfl]
        exact meets_pure post
      · rw [if_neg nonzero]
        exact meets_bind (meets_ptr safe' (rest fuel (enough.imp_right Nat.le_of_succ_le_succ)))

/-! ## Taking a block -/

/-- The loop at a block that is large enough, with the block `v` in front of it. -/
theorem loop_takes {t : ℕ} (links : Links s.header (xs ++ v :: x :: ys) e)
    (ascending : (xs ++ v :: x :: ys).Pairwise fun x y => x.lo < y.lo) (fits : nunits ≤ x.size)
    (tail : x.lo + HEADER * (x.size - nunits) = t) (small : t < 2 ^ 32)
    (inside : ∀ y ∈ ys, t < y.lo)
    (safe : E .fault ∨ Accessible os s.os v.lo ∧ Accessible os s.os x.lo ∧ Accessible os s.os t)
    (enough : E .diverges ∨ 1 ≤ fuel)
    (post : ∀ header zs, Links header (xs ++ v :: zs) e →
      (zs = ys ∧ x.size = nunits ∨ zs = ⟨x.lo, x.size - nunits⟩ :: ys ∧ nunits < x.size) →
      (header t).size = nunits → (∀ a, a ≠ v.lo → a ≠ x.lo → a ≠ t → header a = s.header a) →
      Q (plus t 1) { s with header := header, freep := v.lo }) :
    Meets (mallocLoop os inner nunits fuel v.lo x.lo) s E Q := by
  have safeV : E .fault ∨ Accessible os s.os v.lo := safe.imp_right And.left
  have safeX : E .fault ∨ Accessible os s.os x.lo := safe.imp_right fun all => all.2.1
  have safeT : E .fault ∨ Accessible os s.os t := safe.imp_right fun all => all.2.2
  rcases List.pairwise_append.mp ascending with ⟨_, right, across⟩
  rcases List.pairwise_cons.mp right with ⟨afterV, right'⟩
  have afterX := (List.pairwise_cons.mp right').1
  have lowerX := afterV x List.mem_cons_self
  rcases links_append.mp links with ⟨inFront, headerV, headerX, behind⟩
  cases fuel with
  | zero => exact meets_throw (enough.resolve_right (by omega))
  | succ fuel =>
      refine meets_bind (meets_size safeX
        (meets_ite (fun _ => ?_) fun less => absurd (headerX ▸ fits) less))
      rw [headerX]
      refine meets_ite (fun exact_ => ?_) fun larger => ?_
      · have same : t = x.lo := by
          rw [← tail, show x.size = nunits from exact_, Nat.sub_self, Nat.mul_zero, Nat.add_zero]
        refine meets_bind (meets_ptr safeX
          (meets_bind (meets_setPtr safeV (meets_bind (meets_modify (meets_pure ?_))))))
        have final := post (Function.update s.header v.lo
            { s.header v.lo with ptr := (s.header x.lo).ptr }) ys ?_
          (Or.inl ⟨rfl, exact_⟩) ?_ fun a notV _ _ => Function.update_of_ne notV _ _
        · rw [same] at final
          exact final
        · refine links_append.mpr
            ⟨links_congr (fun y mem => ?_) inFront, ?_, links_congr (fun y mem => ?_) behind⟩
          · exact Function.update_of_ne (across y mem v List.mem_cons_self).ne _ _
          · rw [Function.update_self, headerV, headerX]
          · exact Function.update_of_ne (lowerX.trans (afterX y mem)).ne' _ _
        · rw [same, Function.update_of_ne lowerX.ne', headerX]
          exact exact_
      · have more : nunits < x.size := lt_of_le_of_ne fits (Ne.symm larger)
        have above : x.lo < t := by
          simp only [HEADER] at tail
          omega
        have address : plus x.lo (x.size - nunits) = t := by
          rw [← tail] at small ⊢
          exact plus_eq small
        refine meets_bind (meets_setSize safeX ?_)
        obtain ⟨header, shrunk⟩ :
            ∃ header, Function.update s.header x.lo { s.header x.lo with size := x.size - nunits } =
            header :=
          ⟨_, rfl⟩
        change Meets (do
          setSize os (plus x.lo (x.size - nunits)) nunits
          setFreep v.lo
          return plus (plus x.lo (x.size - nunits)) 1)
            { s with header :=
              Function.update s.header x.lo { s.header x.lo with size := x.size - nunits } } E Q
        rw [address, shrunk]
        have atX : header x.lo = ⟨first ys e, x.size - nunits⟩ := by
          rw [← shrunk, Function.update_self, headerX]
        have elsewhere : ∀ a, a ≠ x.lo → header a = s.header a := by
          intro a notX
          rw [← shrunk, Function.update_of_ne notX]
        refine meets_bind (meets_setSize (by exact safeT)
          (meets_bind (meets_modify (meets_pure ?_))))
        refine post (Function.update header t { header t with size := nunits })
          (⟨x.lo, x.size - nunits⟩ :: ys) ?_
          (Or.inr ⟨rfl, more⟩) ?_ fun a _ notX notT => ?_
        · refine links_append.mpr
            ⟨links_congr (fun y mem => ?_) inFront, ?_, ?_, links_congr (fun y mem => ?_) behind⟩
          · have less := across y mem x (List.mem_cons_of_mem v List.mem_cons_self)
            rw [Function.update_of_ne (less.trans above).ne, elsewhere _ less.ne]
          · rw [Function.update_of_ne (lowerX.trans above).ne, elsewhere _ lowerX.ne, headerV]
            rfl
          · rw [Function.update_of_ne above.ne, atX]
          · rw [Function.update_of_ne (inside y mem).ne', elsewhere _ (afterX y mem).ne']
        · rw [Function.update_self]
        · rw [Function.update_of_ne notT, elsewhere a notX]

section Take

variable {base start limit : ℕ} {t : Extent}

/-- The block `t` of `n` units has been taken from the blocks `xs`, which has left `ys`. -/
structure Taken (s : Heap σ) (base start limit : ℕ) (xs ys : List Extent) (t : Extent) (n : ℕ) :
    Prop where
  list : FreeList s base start limit ys
  size : t.size = n
  disjoint : Disjoint (t.bytes HEADER) (covered HEADER ys)
  covered : covered HEADER ys ∪ t.bytes HEADER = covered HEADER xs
  header : (s.header t.lo).size = n

/-- The loop of `malloc` takes its block from the list. -/
theorem FreeList.take_meets {zs : List Extent} (image : Image base start limit)
    (list : FreeList s base start limit zs) (ring : ⟨base, 0⟩ :: zs = xs ++ v :: x :: ys)
    (fits : nunits ≤ x.size) (some : 0 < nunits)
    (safe : E .fault ∨ ∀ a, a = base ∨ start ≤ a ∧ a + HEADER ≤ limit → Accessible os s.os a)
    (enough : E .diverges ∨ 1 ≤ fuel)
    (post : ∀ s' rest t, s'.os = s.os →
      (∀ a, start ≤ a → a ∉ covered HEADER zs → s'.header a = s.header a) →
      Taken s' base start limit zs rest t nunits → Q (t.lo + HEADER) s') :
    Meets (mallocLoop os inner nunits fuel v.lo x.lo) s E Q := by
  obtain ⟨front, inFront, rfl⟩ : ∃ front, ⟨base, 0⟩ :: front = xs ++ [v] ∧
      zs = front ++ x :: ys := by
    cases xs with
    | nil =>
        cases ring
        exact ⟨[], rfl, rfl⟩
    | cons w xs =>
        cases ring
        exact ⟨xs ++ [v], rfl, by simp⟩
  have whole : ∀ rest, xs ++ v :: rest = ⟨base, 0⟩ :: (front ++ rest) := by
    intro rest
    rw [← List.cons_append, inFront, List.append_assoc, List.singleton_append]
  have ascending := lo_lt_of_apart list.apart
  rw [ring] at ascending
  have links := list.links
  rw [ring] at links
  have member : x ∈ front ++ x :: ys := List.mem_append_right _ List.mem_cons_self
  have bounds := list.within x member
  have top := image.limit_le
  have apart : Apart HEADER (⟨base, 0⟩ :: front ++ x :: ys) := list.apart
  have tail : x.lo + HEADER * (x.size - nunits) + HEADER * nunits = x.hi HEADER := by
    rw [Nat.add_assoc, ← Nat.mul_add, Nat.sub_add_cancel fits, Extent.hi]
  have later : ∀ y ∈ ys, x.hi HEADER < y.lo := by
    rcases List.pairwise_append.mp apart with ⟨_, right, _⟩
    exact (List.pairwise_cons.mp right).1
  have member' : v ∈ ⟨base, 0⟩ :: (front ++ x :: ys) :=
    ring ▸ List.mem_append_right _ List.mem_cons_self
  have nodeV : v.lo = base ∨ start ≤ v.lo ∧ v.lo + HEADER ≤ limit := by
    rcases List.mem_cons.mp member' with rfl | mem
    · exact Or.inl rfl
    · have := list.within v mem
      have := list.positive v mem
      simp only [Extent.hi, HEADER] at *
      exact Or.inr ⟨by omega, by omega⟩
  have sizes : HEADER ≤ HEADER * nunits := Nat.le_mul_of_pos_right _ some
  have unit : 0 < HEADER := by decide
  have inside : x.lo + HEADER * (x.size - nunits) < x.hi HEADER := by omega
  simp only [Vm.KERNBASE] at top
  refine loop_takes links ascending fits rfl (by omega) (fun y mem => ?_) ?_ enough
    fun header rest links' parts size frame => ?_
  · have := later y mem
    omega
  · refine safe.imp_right fun all =>
      ⟨all _ nodeV, all _ (Or.inr ⟨bounds.1, ?_⟩), all _ (Or.inr ⟨?_, ?_⟩)⟩
    · omega
    · omega
    · omega
  · rw [plus_eq (by omega)]
    refine post _ (front ++ rest) ⟨x.lo + HEADER * (x.size - nunits), nunits⟩ rfl ?_
      ⟨⟨?_, ?_, ?_, ?_, ?_⟩, rfl, ?_, ?_, size⟩
    · intro a from_ outside
      refine frame a ?_ ?_ ?_
      · rintro rfl
        rcases List.mem_cons.mp member' with rfl | mem
        · exact absurd from_ (Nat.not_le.mpr ((Nat.lt_add_of_pos_right unit).trans_le image.below))
        · exact outside ⟨v, mem, le_rfl, lo_lt_hi (list.positive v mem)⟩
      · rintro rfl
        exact outside ⟨x, member, le_rfl, (Nat.le_add_right _ _).trans_lt inside⟩
      · rintro rfl
        exact outside ⟨x, member, Nat.le_add_right _ _, inside⟩
    · rw [← whole rest]
      exact links'
    · rcases parts with ⟨rfl, _⟩ | ⟨rfl, _⟩
      · exact apart.remove
      · exact apart.shrink
    · intro y mem
      rcases parts with ⟨rfl, _⟩ | ⟨rfl, more⟩
      · exact list.positive y (List.mem_append.mpr
          ((List.mem_append.mp mem).imp_right (List.mem_cons_of_mem x)))
      · rcases List.mem_append.mp mem with early | late
        · exact list.positive y (List.mem_append_left _ early)
        · rcases List.mem_cons.mp late with rfl | late
          · exact Nat.sub_pos_of_lt more
          · exact list.positive y (List.mem_append_right _ (List.mem_cons_of_mem x late))
    · intro y mem
      rcases parts with ⟨rfl, _⟩ | ⟨rfl, more⟩
      · exact list.within y (List.mem_append.mpr
          ((List.mem_append.mp mem).imp_right (List.mem_cons_of_mem x)))
      · rcases List.mem_append.mp mem with early | late
        · exact list.within y (List.mem_append_left _ early)
        · rcases List.mem_cons.mp late with rfl | late
          · refine ⟨bounds.1, ?_⟩
            change x.lo + HEADER * (x.size - nunits) ≤ limit
            omega
          · exact list.within y (List.mem_append_right _ (List.mem_cons_of_mem x late))
    · exact ⟨v, whole rest ▸ List.mem_append_right _ List.mem_cons_self, rfl⟩
    · have separate := Apart.disjoint_middle (List.pairwise_cons.mp list.apart).2
      rcases parts with ⟨rfl, exact_⟩ | ⟨rfl, more⟩
      · have same : (⟨x.lo + HEADER * (x.size - nunits), nunits⟩ : Extent) = x := by
          rw [← exact_, Nat.sub_self, Nat.mul_zero, Nat.add_zero]
        rw [same]
        exact separate
      · have part : (⟨x.lo + HEADER * (x.size - nunits), nunits⟩ : Extent).bytes HEADER ⊆
            x.bytes HEADER := by
          rw [bytes_split fits]
          exact Set.subset_union_right
        rw [covered_middle, Set.disjoint_union_right]
        exact ⟨separate.mono_left part, (disjoint_of_hi_le le_rfl).symm⟩
    · rcases parts with ⟨rfl, exact_⟩ | ⟨rfl, more⟩
      · have same : (⟨x.lo + HEADER * (x.size - nunits), nunits⟩ : Extent) = x := by
          rw [← exact_, Nat.sub_self, Nat.mul_zero, Nat.add_zero]
        rw [same, covered_middle]
      · rw [covered_middle, covered_middle, Set.union_assoc, ← bytes_split fits]

end Take

/-! ## More memory -/

/-- `sbrk` of a positive number of bytes returns -1, or the start of so many fresh bytes, directly
above all those it has returned before, which reach from `start` to `limit`. The process can access
them, and `base`. -/
structure Fresh (os : Os σ) (valid : σ → Prop) (limit : σ → ℕ) (base start : ℕ) : Prop where
  image : ∀ k, valid k → Image base start (limit k)
  sbrk : ∀ k n, valid k → 0 < n → n < 2 ^ 31 → ∃ r k', os.sbrk n k = some (r, k') ∧ valid k' ∧
    (r = MINUS_ONE ∧ limit k' = limit k ∨ r = limit k ∧ limit k' = limit k + n)
  mapped : ∀ k a, valid k → a = base ∨ start ≤ a ∧ a + HEADER ≤ limit k → Accessible os k a

theorem meets_sbrk {n r : ℕ} {k' : σ} (returned : os.sbrk n s.os = some (r, k'))
    (post : Q r { s with os := k' }) :
    Meets (sbrk os n) s E Q := by
  have run : sbrk os n s = .ok (r, { s with os := k' }) := by rw [sbrk, returned]
  exact meets_ok run post

section Fresh

variable {valid : σ → Prop} {limit : σ → ℕ} {base start : ℕ}

/-- The list is not disturbed by what lies above it. -/
theorem FreeList.grow {s' : Heap σ} {top top' : ℕ} (list : FreeList s base start top xs)
    (image : Image base start top) (le : top ≤ top') (same : ∀ a < top, s'.header a = s.header a)
    (roving : s'.freep = s.freep) :
    FreeList s' base start top' xs where
  links := by
    refine links_congr (fun x mem => same x.lo ?_) list.links
    rcases List.mem_cons.mp mem with rfl | mem
    · exact (Nat.lt_add_of_pos_right (by decide)).trans_le (image.below.trans image.start_le)
    · exact (lo_lt_hi (list.positive x mem)).trans_le (list.within x mem).2
  apart := list.apart
  positive := list.positive
  within := fun x mem => ⟨(list.within x mem).1, (list.within x mem).2.trans le⟩
  roving := by
    rw [roving]
    exact list.roving

/-- What `morecore` asks for. -/
def request (nunits : ℕ) : ℕ := HEADER * max 4096 nunits

/-- `morecore` adds fresh memory to the list, or the kernel has none. -/
theorem FreeList.morecore_meets (fresh : Fresh os valid limit base start) (valid_ : valid s.os)
    (list : FreeList s base start (limit s.os) xs) (some : 0 < nunits)
    (small : HEADER * nunits < 2 ^ 31) (enough : E .diverges ∨ xs.length + 1 < inner) :
    Meets (morecore os inner nunits) s E fun p s' => valid s'.os ∧
      (∀ a, start ≤ a → a < limit s.os → a ∉ covered HEADER xs → s'.header a = s.header a) ∧
      (p = 0 ∧ os.sbrk (request nunits) s.os = Option.some (MINUS_ONE, s'.os) ∧
        limit s'.os = limit s.os ∧
          FreeList s' base start (limit s'.os) xs ∨
        p = s'.freep ∧ p ≠ 0 ∧ os.sbrk (request nunits) s.os = Option.some (limit s.os, s'.os) ∧
          ∃ ys, FreeList s' base start (limit s'.os) ys ∧ limit s.os ≤ limit s'.os ∧
          covered HEADER ys = covered HEADER xs ∪ Set.Ico (limit s.os) (limit s'.os) ∧
          (∃ x ∈ ys, nunits ≤ x.size) ∧ ys.length ≤ xs.length + 1) := by
  have image := fresh.image s.os valid_
  obtain ⟨nu, most⟩ : ∃ nu, max 4096 nunits = nu := ⟨_, rfl⟩
  have asked : (if nunits < 4096 then 4096 else nunits) = nu := by
    split <;> omega
  have larger : nunits ≤ nu := by omega
  have positive : 0 < nu := by omega
  have fits : HEADER * nu < 2 ^ 31 := by
    simp only [HEADER] at small ⊢
    omega
  have bytes : nu * HEADER % 2 ^ 32 = HEADER * nu := by
    rw [Nat.mul_comm, Nat.mod_eq_of_lt (fits.trans (by decide))]
  rw [morecore, asked, bytes]
  rcases fresh.sbrk s.os (HEADER * nu) valid_ (Nat.mul_pos (by decide) positive) fits
    with ⟨r, k', returned, valid', outcome⟩
  have called : os.sbrk (request nunits) s.os = Option.some (r, k') := by
    rw [request, most]
    exact returned
  have image' := fresh.image k' valid'
  refine meets_bind (meets_sbrk returned ?_)
  rcases outcome with ⟨rfl, same⟩ | ⟨rfl, grown⟩
  · rw [if_pos rfl]
    exact meets_pure ⟨valid', fun _ _ _ _ => rfl, Or.inl ⟨rfl, called, same,
      list.grow image same.ge (fun _ _ => rfl) rfl⟩⟩
  · have top := image.limit_le
    have unit : HEADER ≤ HEADER * nu := Nat.le_mul_of_pos_right _ positive
    simp only [Vm.KERNBASE] at top
    have ends : (⟨limit s.os, nu⟩ : Extent).hi HEADER = limit k' := grown.symm
    have nowhere : ¬limit s.os = MINUS_ONE := by
      simp only [MINUS_ONE]
      omega
    rw [if_neg nowhere]
    have safe : ∀ a, a = base ∨ start ≤ a ∧ a + HEADER ≤ limit k' → Accessible os k' a :=
      fun a place => fresh.mapped k' a valid' place
    refine meets_bind (meets_setSize (Or.inr (safe _ (Or.inr ⟨image.start_le, ?_⟩))) ?_)
    · omega
    · obtain ⟨s₁, current⟩ : ∃ s₁ : Heap σ, ({ s with
          os := k',
          header := Function.update s.header (limit s.os) { s.header (limit s.os) with size := nu }
          } : Heap σ) = s₁ := ⟨_, rfl⟩
      have header : ∀ a, a ≠ limit s.os → s₁.header a = s.header a := by
        intro a other
        rw [← current]
        exact Function.update_of_ne other _ _
      have size : (s₁.header (limit s.os)).size = nu := by
        rw [← current]
        change (Function.update s.header (limit s.os) _ (limit s.os)).size = nu
        rw [Function.update_self]
      have os_eq : s₁.os = k' := (congrArg Heap.os current).symm
      have list₁ : FreeList s₁ base start (limit k') xs :=
        list.grow image (by omega) (fun a below => header a below.ne)
          (congrArg Heap.freep current).symm
      have within : covered HEADER xs ⊆ Set.Ico start (limit s.os) := covered_subset list.within
      have apart : Disjoint ((⟨limit s.os, nu⟩ : Extent).bytes HEADER) (covered HEADER xs) := by
        rw [Set.disjoint_left]
        intro a inNew inOld
        exact absurd inNew.1 (Nat.not_le.mpr (within inOld).2)
      change Meets _ { s with
        os := k',
        header := Function.update s.header (limit s.os) { s.header (limit s.os) with size := nu } }
        E _
      rw [current]
      refine meets_bind ((list₁.free_meets (b := ⟨limit s.os, nu⟩) image' positive
        ⟨image.start_le, ends.le⟩ apart size
        (Or.inr (os_eq.symm ▸ safe)) enough).mono (fun _ stop => stop) ?_)
      rintro _ s' ⟨ys, list', covers, ⟨x, mem, large⟩, length, os_eq', frame⟩
      rw [os_eq] at os_eq'
      refine meets_bind (meets_get (meets_pure ?_))
      rw [os_eq']
      refine ⟨valid', fun a from_ below outside =>
        ?_, Or.inr ⟨rfl, ?_, called, ys, list', by omega, ?_,
        ⟨x, mem, larger.trans large⟩, length⟩⟩
      · rw [frame a from_ outside below.ne, header a below.ne]
      · rcases list'.roving with ⟨y, mem, same⟩
        have positive' := image.positive
        have := image.below
        rcases List.mem_cons.mp mem with rfl | mem
        · rw [same]
          exact positive'.ne'
        · have := (list'.within y mem).1
          omega
      · rw [covers, Extent.bytes, ends]

/-- Before the first call of `malloc` there is no list. -/
def Ready (s : Heap σ) (base start limit : ℕ) (xs : List Extent) : Prop :=
  s.freep = 0 ∧ xs = [] ∨ FreeList s base start limit xs

/-- What a call of `malloc` for `n` units does: it returns 0, or takes a block from the free ones
and the fresh memory. -/
structure Malloced (os : Os σ) (s s' : Heap σ) (valid : σ → Prop) (limit : σ → ℕ) (base start : ℕ)
    (xs : List Extent) (n p : ℕ) : Prop where
  valid : valid s'.os
  le : limit s.os ≤ limit s'.os
  frame : ∀ a, start ≤ a → a < limit s.os → a ∉ covered HEADER xs → s'.header a = s.header a
  result : p = 0 ∧ FreeList s' base start (limit s'.os) xs ∧ limit s'.os = limit s.os ∧
    (∀ x ∈ xs, x.size < n) ∧
      os.sbrk (request n) s.os = some (MINUS_ONE, s'.os) ∨
    ((∃ x ∈ xs, n ≤ x.size) ∨ os.sbrk (request n) s.os = some (limit s.os, s'.os)) ∧
      ∃ zs ys t, p = t.lo + HEADER ∧ Taken s' base start (limit s'.os) zs ys t n ∧
      covered HEADER zs = covered HEADER xs ∪ Set.Ico (limit s.os) (limit s'.os)

/-- The loop of `malloc`, from `freep` on. -/
theorem FreeList.loop_meets (fresh : Fresh os valid limit base start) (valid_ : valid s.os)
    (list : FreeList s base start (limit s.os) xs) (some : 0 < nunits)
    (small : HEADER * nunits < 2 ^ 31) (enough : E .diverges ∨ 2 * xs.length + 5 ≤ fuel)
    (enough' : E .diverges ∨ xs.length + 1 < inner) :
    Meets (mallocLoop os inner nunits fuel s.freep (s.header s.freep).ptr) s E fun p s' =>
      Malloced os s s' valid limit base start xs nunits p := by
  have safe : ∀ (k : σ), valid k → ∀ a, a = base ∨ start ≤ a ∧ a + HEADER ≤ limit k →
      Accessible os k a :=
    fun k valid_ a place => fresh.mapped k a valid_ place
  have nodes : ∀ (s : Heap σ) (xs : List Extent), valid s.os →
    FreeList s base start (limit s.os) xs →
      ∀ x ∈ ⟨base, 0⟩ :: xs, Accessible os s.os x.lo := by
    intro s xs valid_ list x mem
    refine safe _ valid_ _ ?_
    rcases List.mem_cons.mp mem with rfl | mem
    · exact Or.inl rfl
    · have := list.within x mem
      have := list.positive x mem
      simp only [Extent.hi, HEADER] at *
      exact Or.inr ⟨by omega, by omega⟩
  rcases list.roving with ⟨y, mem, roving⟩
  rw [roving]
  refine loop_round (k := xs.length + 4) list.links (lo_lt_of_apart list.apart) mem roving
    (Or.inr (nodes s xs valid_ list))
    (enough.imp_right fun le => by omega) some ?_ ?_
  · intro before v x after fuel ring fits enough
    refine list.take_meets (fresh.image _ valid_) ring fits some (Or.inr (safe _ valid_))
      (enough.imp_right fun le => by omega) ?_
    intro s' ys t same frame taken
    refine ⟨same ▸ valid_, same ▸ le_rfl, fun a from_ _ outside => frame a from_ outside,
      Or.inr ⟨Or.inl ?_, xs, ys, t, rfl, ?_, ?_⟩⟩
    · have member : x ∈ ⟨base, 0⟩ :: xs :=
        ring ▸ List.mem_append_right _ (List.mem_cons_of_mem v List.mem_cons_self)
      rcases List.mem_cons.mp member with rfl | mem
      · exact absurd fits (Nat.not_le.mpr some)
      · exact ⟨x, mem, fits⟩
    · rw [same]
      exact taken
    · rw [same, Set.Ico_self, Set.union_empty]
  · intro tooSmall fuel p enough
    have size : (s.header s.freep).size < nunits := by
      rw [roving, list.links.size_eq mem]
      rcases List.mem_cons.mp mem with rfl | mem
      · exact some
      · exact tooSmall y mem
    rw [← roving]
    refine loop_asks (k := xs.length + 3) (Or.inr (roving ▸ nodes s xs valid_ list y mem))
      enough size
      ((list.morecore_meets fresh valid_ some small enough').mono (fun _ stop => stop) ?_)
    rintro p s' ⟨valid', frame,
      ⟨rfl, failed, same, list'⟩ | ⟨rfl, nonzero, given, ys, list', le, covers, ⟨x, inYs, fits⟩,
      length⟩⟩
    · exact Or.inl ⟨rfl, valid', same.ge, frame, Or.inl ⟨rfl, list', same, tooSmall, failed⟩⟩
    · rcases list'.roving with ⟨z, mem', roving'⟩
      rw [roving'] at nonzero ⊢
      refine Or.inr ⟨nonzero, Or.inr (nodes s' ys valid' list' z mem'), fun fuel enough => ?_⟩
      refine loop_round (k := 1) list'.links (lo_lt_of_apart list'.apart) mem' roving'
        (Or.inr (nodes s' ys valid' list')) (enough.imp_right fun le => by omega) some ?_
        fun tooSmall => absurd fits (Nat.not_le.mpr (tooSmall x inYs))
      intro before v x after fuel ring fits enough
      refine list'.take_meets (fresh.image _ valid') ring fits some
        (Or.inr (safe _ valid')) enough ?_
      intro s'' rest t same frame' taken
      refine ⟨same ▸ valid', same ▸ le,
        fun a from_ below outside => ?_, Or.inr ⟨Or.inr (same ▸ given), ys, rest, t, rfl, ?_, ?_⟩⟩
      · rw [frame' a from_ ?_, frame a from_ below outside]
        rw [covers]
        rintro (old | new)
        · exact outside old
        · exact absurd below (Nat.not_lt.mpr new.1)
      · rw [same]
        exact taken
      · rw [same]
        exact covers

/-- `malloc` up to its loop. -/
theorem malloc_start {nbytes : Word} {top : ℕ} (image : Image base start top)
    (ready : Ready s base start top xs)
    (safe : E .fault ∨ ∀ a, a = base ∨ start ≤ a ∧ a + HEADER ≤ top → Accessible os s.os a)
    (rest : ∀ s₁ : Heap σ, s₁.os = s.os → (∀ a, start ≤ a → s₁.header a = s.header a) →
      FreeList s₁ base start top xs →
      Meets (mallocLoop os fuel (units nbytes.toNat) fuel s₁.freep (s₁.header s₁.freep).ptr)
      s₁ E Q) :
    Meets (malloc os base fuel nbytes) s E Q := by
  have atBase := safe.imp_right fun all => all base (Or.inl rfl)
  have go : ∀ s₁ : Heap σ, s₁.os = s.os → (∀ a, start ≤ a → s₁.header a = s.header a) →
      FreeList s₁ base start top xs → Meets (do
        let prevp := (← get).freep
        mallocLoop os fuel (units nbytes.toNat) fuel prevp (← ptr os prevp)) s₁ E Q := by
    intro s₁ same header list
    refine meets_bind (meets_get (meets_bind (meets_ptr ?_ (rest s₁ same header list))))
    rw [same]
    refine safe.imp_right fun all => all _ ?_
    rcases list.roving with ⟨y, mem, roving⟩
    rw [roving]
    rcases List.mem_cons.mp mem with rfl | mem
    · exact Or.inl rfl
    · have := list.within y mem
      have := list.positive y mem
      refine Or.inr ⟨by omega, ?_⟩
      simp only [Extent.hi, HEADER] at *
      omega
  rw [malloc]
  refine meets_bind (meets_get (meets_ite (fun zero => ?_) fun nonzero => ?_))
  · rcases ready with ⟨_, rfl⟩ | list
    · refine meets_bind (meets_setPtr atBase
        (meets_bind (meets_modify (meets_bind (meets_setSize (by exact atBase) ?_)))))
      have low : base < start := (Nat.lt_add_of_pos_right (by decide)).trans_le image.below
      refine go _ rfl (fun a from_ => ?_)
        ⟨⟨?_, trivial⟩, List.pairwise_singleton _ _, List.forall_mem_nil _,
        List.forall_mem_nil _, ⟨_, List.mem_cons_self, rfl⟩⟩
      · have other : a ≠ base := by omega
        simp only [Function.update_of_ne other]
      · simp only [Function.update_self]
        rfl
    · rcases list.roving with ⟨y, mem, roving⟩
      have positive := image.positive
      rcases List.mem_cons.mp mem with rfl | mem
      · exact absurd (roving.symm.trans zero) positive.ne'
      · have := (list.within y mem).1
        have := image.below
        omega
  · exact go s rfl (fun _ _ => rfl) (ready.resolve_left fun both => nonzero both.1)

/-- `malloc` gives out a block that is apart from all others, or 0. -/
theorem malloc_meets {nbytes : Word} (fresh : Fresh os valid limit base start) (valid_ : valid s.os)
    (ready : Ready s base start (limit s.os) xs) (small : HEADER * units nbytes.toNat < 2 ^ 31)
    (enough : E .diverges ∨ 2 * xs.length + 5 ≤ fuel) :
    Meets (malloc os base fuel nbytes) s E fun p s' =>
      Malloced os s s' valid limit base start xs (units nbytes.toNat) p := by
  have enough' : E .diverges ∨ xs.length + 1 < fuel := enough.imp_right fun le => by omega
  refine malloc_start (fresh.image s.os valid_) ready
    (Or.inr fun a place => fresh.mapped s.os a valid_ place)
    fun s₁ same header list => ?_
  rw [← same] at valid_ list
  refine (list.loop_meets fresh valid_ (Nat.succ_pos _) small enough enough').mono
    (fun _ stop => stop) fun p s' done => ?_
  have le := done.le
  have frame := done.frame
  have result := done.result
  rw [same] at le frame result
  exact ⟨done.valid, le, fun a from_ below outside =>
    (frame a from_ below outside).trans (header a from_), result⟩

end Fresh

end Xv6.User
