import Mathlib.Data.List.GetD
import Mathlib.Data.List.TakeWhile
import Xv6.Dir.Table
import Xv6.Names.Inodes

/-!
# Paths

`skipelem`, `namex`, `namei` and `nameiparent` of part2's `fs.c`. A path is the memory from its
first byte on, of which the bytes up to the NUL are the string, and the buffer for a name keeps what
is not overwritten. The elements of a path are its pieces between slashes, and `skipelem` takes them
off one after the other.
-/

namespace Xv6.Dir

open Prog
open Fs (Mem Devsw Kernel T_DIR)
open Names (slash)

/-! ## The functions -/

/-- `memmove(name, s, n)` -/
def memmove (name : Mem) (s : List Byte) (n : ℕ) : Mem := fun j => if j < n then s.getD j 0
      else name j

/-- The path after its first element, and the buffer with that element. -/
def skipelem (path : List Byte) (name : Mem) : Option (List Byte × Mem) :=
  (Strings.element slash path).map fun (s, path) =>
    let len := s.length
    (path,
      if len ≥ DIRSIZ then memmove name s DIRSIZ
      else Function.update (memmove name s len) len 0)

/-- How a function ends that does not return. -/
inductive PathStop where
  | dir (e : Stop)
  /-- `ilock` waits for a lock, or panics. -/
  | ilock
  | iunlock

abbrev PathM := Prog Kernel PathStop

def onDir {α : Type} (m : DirM α) : PathM α := zoom id (fun _ k => k) .dir m

def idup (i : Fin NINODE) : PathM (Fin NINODE) := do
  modify fun k => k.idup i
  return i

def ilock (i : Fin NINODE) : PathM Unit := do
  match (← get).ilock i with
  | some k => set k
  | none => throw .ilock

def iunlock (i : Fin NINODE) : PathM Unit := do
  match (← get).iunlock i with
  | some k => set k
  | none => throw .iunlock

def iunlockput (i : Fin NINODE) : PathM Unit := do
  iunlock i
  onDir (iput i)

variable (dev : Devsw)

/-- The end of `namex`, after its loop. -/
def pathEnd (nameiparent : Bool) (ip : Fin NINODE) (name : Mem) :
    PathM (Option (Fin NINODE × Mem)) := do
  if nameiparent then
    onDir (iput ip)
    return none
  return some (ip, name)

/-- The loop of `namex`; as many turns as the path has bytes are enough. -/
def pathLoop (nameiparent : Bool) :
    ℕ → Fin NINODE → List Byte → Mem → PathM (Option (Fin NINODE × Mem))
  | 0, ip, _, name => pathEnd nameiparent ip name
  | turns + 1, ip, path, name =>
      match skipelem path name with
      | none => pathEnd nameiparent ip name
      | some (path, name) => do
          ilock ip
          if ((← get).icache ip).type ≠ T_DIR then
            iunlockput ip
            return none
          if nameiparent ∧ path.headD 0 = 0 then
            -- Stop one level early.
            iunlock ip
            return some (ip, name)
          match ← onDir (dirlookup dev ip name) with
          | none =>
              iunlockput ip
              return none
          | some (_, next) =>
              iunlockput ip
              pathLoop nameiparent turns next path name

/-- The inode for the path, or for its parent, and the buffer. -/
def namex (cwd : Fin NINODE) (path : List Byte) (nameiparent : Bool) (name : Mem) :
    PathM (Option (Fin NINODE × Mem)) := do
  let ip ← if path.headD 0 = slash then onDir (iget ROOTINO) else idup cwd
  pathLoop dev nameiparent path.length ip path name

/-- The buffer `char name[DIRSIZ]` is not initialized. -/
def namei (cwd : Fin NINODE) (path : List Byte) (name : Mem) : PathM (Option (Fin NINODE)) := do
  return (← namex dev cwd path false name).map Prod.fst

def nameiparent (cwd : Fin NINODE) (path : List Byte) (name : Mem) :
    PathM (Option (Fin NINODE × Mem)) :=
  namex dev cwd path true name

/-! ## Strings in memory -/

section Strings

variable {s path : List Byte} {m name : Mem} {n : ℕ}

/-- The bytes before the NUL. -/
def cstring (path : List Byte) : List Byte := path.takeWhile (· ≠ 0)

theorem plain_cstring (path : List Byte) : 0 ∉ cstring path := by
  intro zero
  simpa using List.mem_takeWhile_imp zero

theorem headD_eq_zero : path.headD 0 = 0 ↔ cstring path = [] := by
  cases path with
  | nil => exact iff_of_true rfl rfl
  | cons b path =>
      rw [cstring, List.headD_cons, List.takeWhile_cons]
      by_cases stop : b = 0
      · simp [stop]
      · simp

/-- Cutting off and skipping commute. -/
theorem dropWhile_takeWhile (p q : Byte → Bool) (s : List Byte) :
    (s.takeWhile q).dropWhile p = (s.dropWhile fun b => p b && q b).takeWhile q := by
  induction s with
  | nil => rfl
  | cons b s ih =>
      rw [List.takeWhile_cons, List.dropWhile_cons]
      cases kept : q b with
      | false => simp [kept]
      | true =>
          rw [if_pos rfl, List.dropWhile_cons, Bool.and_true, ih]
          cases p b with
          | false => simp [kept]
          | true => rfl

theorem cstring_dropWhile_slash (path : List Byte) :
    cstring (path.dropWhile (· = slash)) = (cstring path).dropWhile (· = slash) := by
  rw [cstring, cstring, dropWhile_takeWhile]
  refine congrArg (fun p => (path.dropWhile p).takeWhile _) (funext fun b => ?_)
  by_cases here : b = slash
  · subst here
    rfl
  · simp [here]

theorem mem_takeWhile_plain {b : Byte} (mem : b ∈ s.takeWhile fun b => b ≠ slash ∧ b ≠ 0) :
    b ≠ slash ∧ b ≠ 0 := by
  simpa using List.mem_takeWhile_imp mem

/-- The bytes from the NUL on do not matter. -/
theorem element_cstring (path : List Byte) :
    (Strings.element slash path).map (fun x => (x.1, cstring x.2)) =
      Strings.element slash (cstring path) := by
  rw [Strings.element, Strings.element, ← cstring_dropWhile_slash]
  generalize path.dropWhile (· = slash) = s
  have ends : s.headD 0 = 0 ↔ (cstring s).headD 0 = 0 := by
    rw [headD_eq_zero, headD_eq_zero, cstring, cstring, List.takeWhile_takeWhile]
    simp
  have name : ((cstring s).takeWhile fun b => b ≠ slash ∧ b ≠ 0) = s.takeWhile fun b => b ≠ slash ∧
      b ≠ 0 := by
    rw [cstring, List.takeWhile_takeWhile]
    simp
  have rest : ((cstring s).dropWhile fun b => b ≠ slash ∧ b ≠ 0) =
      cstring (s.dropWhile fun b => b ≠ slash ∧ b ≠ 0) := by
    rw [cstring, dropWhile_takeWhile, cstring]
    simp
  by_cases stop : s.headD 0 = 0
  · rw [if_pos stop, if_pos (ends.mp stop)]
    rfl
  · rw [if_neg stop, if_neg fun ended => stop (ends.mpr ended), name, rest,
      ← cstring_dropWhile_slash]
    rfl

/-- The buffer has the element, or its first `DIRSIZ` bytes. -/
theorem text_skipelem (plain : 0 ∉ s) (name : Mem) :
    text DIRSIZ (if s.length ≥ DIRSIZ then memmove name s DIRSIZ
      else Function.update (memmove name s s.length) s.length 0) = s.take DIRSIZ := by
  refine Strings.upTo_eq_take (fun j less inside => ?_) plain fun short => ?_
  · split
    · exact if_pos less
    · exact (Function.update_of_ne (Nat.ne_of_lt inside) _ _).trans (if_pos inside)
  · rw [if_neg (Nat.not_le.mpr short)]
    exact Function.update_self ..

/-- `skipelem` on the memory is `skipelem` on the strings. -/
theorem skipelem_text (path : List Byte) (name : Mem) :
    (skipelem path name).map (fun x => (text DIRSIZ x.2, cstring x.1)) =
      Names.skipelem (cstring path) := by
  rw [skipelem, Names.skipelem, ← element_cstring]
  cases taken : Strings.element slash path with
  | none => rfl
  | some x =>
      refine congrArg some (Prod.ext (text_skipelem (fun zero => ?_) name) rfl)
      rw [Strings.element] at taken
      simp only [Option.ite_none_left_eq_some, Option.some.injEq] at taken
      rw [← taken.2] at zero
      exact (mem_takeWhile_plain zero).2 rfl

end Strings

/-! ## Elements -/

section Elements

variable {s rest : List Byte} {name : List Byte}

/-- The nonempty pieces between slashes. -/
def pieces (s : List Byte) : List (List Byte) := (s.splitOnP (· = slash)).filter (· ≠ [])

/-- The pieces, each cut off after `DIRSIZ` bytes. -/
def elements (s : List Byte) : List (List Byte) := (pieces s).map (List.take DIRSIZ)

theorem pieces_nil : pieces [] = [] := rfl

theorem pieces_slash (s : List Byte) : pieces (slash :: s) = pieces s := by
  rw [pieces, List.splitOnP_cons_eq_if_modifyHead, if_pos (decide_eq_true rfl)]
  rfl

theorem pieces_dropWhile (s : List Byte) : pieces (s.dropWhile (· = slash)) = pieces s := by
  induction s with
  | nil => rfl
  | cons b s ih =>
      rw [List.dropWhile_cons]
      split
      next here =>
        rw [of_decide_eq_true here, pieces_slash, ih]
      next => rfl

/-- A string that does not begin with a slash begins with its first piece. -/
theorem pieces_eq_cons (some_ : s ≠ []) (begins : s.head? ≠ some slash) :
    pieces s = s.takeWhile (· ≠ slash) :: pieces (s.dropWhile (· ≠ slash)) := by
  have first : s.takeWhile (· ≠ slash) ≠ [] := by
    cases s with
    | nil => exact absurd rfl some_
    | cons b s =>
        have here : b ≠ slash := fun same => begins (congrArg some same)
        simp [here]
  have plain : ∀ b ∈ s.takeWhile (· ≠ slash), decide (b = slash) = false := by
    intro b mem
    simpa using List.mem_takeWhile_imp mem
  conv_lhs => rw [← List.takeWhile_append_dropWhile (p := (· ≠ slash)) (l := s), pieces]
  cases rest : s.dropWhile (· ≠ slash) with
  | nil =>
      rw [List.append_nil, List.splitOnP_eq_singleton plain, List.filter_cons,
        if_pos (decide_eq_true first)]
      rfl
  | cons b t =>
      have here : b = slash := by
        have stopped := List.head?_dropWhile_not (fun b : Byte => b ≠ slash) s
        rw [rest] at stopped
        simpa using stopped
      subst here
      rw [List.splitOnP_append_cons_of_forall_mem plain _ (decide_eq_true rfl), List.filter_cons,
        if_pos (decide_eq_true first), pieces_slash]
      rfl

theorem head?_dropWhile_slash (s : List Byte) : (s.dropWhile (· = slash)).head? ≠ some slash := by
  intro begins
  have stopped := List.head?_dropWhile_not (fun b : Byte => b = slash) s
  rw [begins] at stopped
  simp at stopped

theorem elements_of_none (plain : 0 ∉ s) (none : Names.skipelem s = none) : elements s = [] := by
  rw [Names.skipelem, Option.map_eq_none_iff, Strings.element_plain plain] at none
  split at none
  next nothing => rw [elements, ← pieces_dropWhile, nothing, pieces_nil, List.map_nil]
  next => cases none

/-- `skipelem` takes the first element off. -/
theorem elements_of_some (plain : 0 ∉ s) (taken : Names.skipelem s = some (name, rest)) :
    elements s = name :: elements rest ∧ (elements rest = [] ↔ rest = []) := by
  rw [Names.skipelem, Strings.element_plain plain] at taken
  split at taken
  next => cases taken
  next nonempty =>
    cases taken
    rw [elements, ← pieces_dropWhile, pieces_eq_cons nonempty (head?_dropWhile_slash s),
      List.map_cons, elements,
      pieces_dropWhile]
    refine ⟨rfl, ?_⟩
    generalize (s.dropWhile (· = slash)).dropWhile (· ≠ slash) = tail
    rw [List.map_eq_nil_iff, ← pieces_dropWhile]
    constructor
    · intro nothing
      by_contra more
      rw [pieces_eq_cons more (head?_dropWhile_slash tail)] at nothing
      cases nothing
    · intro nothing
      rw [nothing, pieces_nil]

end Elements

end Xv6.Dir
