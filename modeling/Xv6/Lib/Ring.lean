import Mathlib.Tactic

/-!
# Ring buffers

A ring of `size` slots is indexed by a counter that only grows; counter `c` stands for
slot `c % size`. `slots` lists the contents between two counters. Storing at the upper
counter appends to the list, and taking from the lower counter removes its head, so the
list is the queue that the ring implements. Only the counters modulo `size` matter, which
is why counters of fixed width will do.
-/

namespace Xv6.Ring

variable {α : Type} {size : ℕ} [NeZero size] {data : Fin size → α} {r r' n : ℕ}

/-- The contents of the `n` slots from counter `r` on. -/
def slots (data : Fin size → α) (r n : ℕ) : List α :=
  (List.range n).map fun i => data (Fin.ofNat size (r + i))

@[simp]
theorem length_slots : (slots data r n).length = n := by
  simp [slots]

@[simp]
theorem slots_zero : slots data r 0 = [] := rfl

/-- Two counters less than a turn apart stand for different slots. -/
theorem ofNat_ne (later : r < r') (turn : r' < r + size) :
    Fin.ofNat size r ≠ Fin.ofNat size r' := by
  intro same
  have equal : r % size = r' % size := congrArg Fin.val same
  have divides := (Nat.modEq_iff_dvd' later.le).mp equal
  have := Nat.le_of_dvd (by omega) divides
  omega

theorem slots_push (room : n < size) (a : α) :
    slots (Function.update data (Fin.ofNat size (r + n)) a) r (n + 1) = slots data r n ++ [a] := by
  rw [slots, List.range_succ, List.map_append, List.map_singleton, Function.update_self]
  congr 1
  refine List.map_congr_left fun i mem => ?_
  have before : i < n := List.mem_range.mp mem
  exact Function.update_of_ne (ofNat_ne (by omega) (by omega)) _ _

/-- The last slot. -/
theorem slots_succ : slots data r (n + 1) = slots data r n ++ [data (Fin.ofNat size (r + n))] := by
  rw [slots, List.range_succ, List.map_append, List.map_singleton, slots]

theorem slots_pop : slots data r (n + 1) = data (Fin.ofNat size r) :: slots data (r + 1) n := by
  rw [slots, List.range_succ_eq_map, List.map_cons, List.map_map]
  refine congrArg _ (List.map_congr_left fun i _ => ?_)
  rw [Function.comp_apply, Nat.succ_eq_add_one, Nat.add_right_comm, Nat.add_assoc]

/-- Only the counter modulo the number of slots matters. -/
theorem slots_congr (same : r % size = r' % size) : slots data r n = slots data r' n := by
  refine List.map_congr_left fun i _ => congrArg data (Fin.ext ?_)
  change (r + i) % size = (r' + i) % size
  rw [Nat.add_mod, same, ← Nat.add_mod]

end Xv6.Ring
