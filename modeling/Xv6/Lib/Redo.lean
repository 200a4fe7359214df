import Mathlib.Tactic

/-!
# Redo records

A redo record is a list of addresses together with a copy of the intended
contents of each of them. A store with a pending record stands for the store
in which every copy has been installed at its address. The lemmas say that
installing the copies in order, any number of times and from any intermediate
point, reaches that store. Nothing here depends on what is stored.
-/

namespace Xv6.Redo

variable {ι β : Type*} [DecidableEq ι]

/-- The store after a sequence of updates. -/
def play (store : ι → β) (updates : List (ι × β)) : ι → β :=
  updates.foldl (fun current update => Function.update current update.1 update.2) store

@[simp]
theorem play_nil (store : ι → β) : play store [] = store := rfl

theorem play_append (store : ι → β) (first second : List (ι × β)) :
    play store (first ++ second) = play (play store first) second := by
  simp [play]

theorem play_concat (store : ι → β) (updates : List (ι × β)) (address : ι) (value : β) :
    play store (updates ++ [(address, value)]) =
      Function.update (play store updates) address value := by
  simp [play]

theorem play_of_notMem {store : ι → β} {updates : List (ι × β)} {address : ι}
    (absent : address ∉ updates.map Prod.fst) : play store updates address = store address := by
  induction updates using List.reverseRecOn with
  | nil => rfl
  | append_singleton updates update ih =>
      obtain ⟨target, value⟩ := update
      simp only [List.map_append, List.map_cons, List.map_nil, List.mem_append,
        List.mem_singleton, not_or] at absent
      rw [play_concat, Function.update_of_ne absent.2, ih absent.1]

/--
`store` stands for `spec` on `home`: outside the recorded addresses it agrees
with `spec`, and the copy kept for each recorded address is its value in `spec`.
-/
structure Pending (home : Set ι) (spec store : ι → β) (record : List ι) (copy : ℕ → β) :
    Prop where
  recorded_home : ∀ address ∈ record, address ∈ home
  copied : ∀ (i : ℕ) (bound : i < record.length), copy i = spec record[i]
  settled : ∀ address ∈ home, address ∉ record → store address = spec address

/-- The first `count` recorded addresses have been installed. -/
def Installed (spec store : ι → β) (record : List ι) (count : ℕ) : Prop :=
  ∀ (i : ℕ) (bound : i < record.length), i < count → store record[i] = spec record[i]

variable {home : Set ι} {spec store : ι → β} {record : List ι} {copy : ℕ → β}

omit [DecidableEq ι] in
theorem Installed.zero : Installed spec store record 0 := by
  intro i bound impossible
  omega

/-- Installing one copy leaves the record pending. -/
theorem Pending.install (pending : Pending home spec store record copy) {i : ℕ}
    (bound : i < record.length) :
    Pending home spec (Function.update store record[i] (copy i)) record copy where
  recorded_home := pending.recorded_home
  copied := pending.copied
  settled := by
    intro address inHome absent
    have distinct : address ≠ record[i] := by
      rintro rfl
      exact absent (List.getElem_mem bound)
    rw [Function.update_of_ne distinct, pending.settled address inHome absent]

/-- Installing the next copy extends the installed prefix. -/
theorem Installed.install (pending : Pending home spec store record copy) {count : ℕ}
    (installed : Installed spec store record count) (bound : count < record.length) :
    Installed spec (Function.update store record[count] (copy count)) record (count + 1) := by
  intro i inRange below
  by_cases same : record[i] = record[count]
  · rw [same, Function.update_self, pending.copied count bound]
  · rw [Function.update_of_ne same]
    apply installed i inRange
    rcases Nat.lt_succ_iff_lt_or_eq.mp below with earlier | rfl
    · exact earlier
    · exact absurd rfl same

/-- Once every copy is installed the store is the one it stood for. -/
theorem Pending.complete (pending : Pending home spec store record copy) {count : ℕ}
    (installed : Installed spec store record count) (all : record.length ≤ count) :
    ∀ address ∈ home, store address = spec address := by
  intro address inHome
  by_cases present : address ∈ record
  · obtain ⟨i, bound, rfl⟩ := List.getElem_of_mem present
    exact installed i bound (by omega)
  · exact pending.settled address inHome present

omit [DecidableEq ι] in
/-- A store that agrees with `spec` everywhere has the empty record pending. -/
theorem Pending.of_settled (agree : ∀ address ∈ home, store address = spec address) :
    Pending home spec store [] copy where
  recorded_home := by simp
  copied := by simp
  settled := fun address inHome _ => agree address inHome

end Xv6.Redo
