import Xv6.Vm.Copyout
import Xv6.Vm.Segments

/-!
# The argument stack

`exec` packs the argument strings downward from the end of the stack page, and below them the
words that `main` finds: a fake return address, `argc`, `argv` and the array it points to. Nothing
checks that they fit into the page. When they do not, `copyout` comes to the guard page below it,
or, after the stack pointer has wrapped around, to page 0 or the kernel's half, and fails.
-/

namespace Xv6.Vm

open Prog

variable {L : Link} {img : Image} {m m' m₀ m₁ : Mem} {o o₀ : ℕ → Owner}
  {p q v w n a va sp sz base : ℕ} {bytes arg : List Byte} {argv done : List (List Byte)}
  {args : List ℕ} {c : Page}

/-! ## What the process sees -/

/-- The byte at user address `a`. -/
def Mem.userByte (m : Mem) (q a : ℕ) : Byte :=
  m.page (pteAddr (m.pte q (a / PGSIZE))) ⟨a % PGSIZE, Nat.mod_lt _ (by decide)⟩

/-- The little-endian number in the `k` bytes at user address `a`. -/
def Mem.userLE (m : Mem) (q a : ℕ) : ℕ → ℕ
  | 0 => 0
  | k + 1 => (m.userByte q a).toNat + 256 * m.userLE q (a + 1) k

/-- The word at user address `a`. -/
def Mem.userWord (m : Mem) (q a : ℕ) : ℕ := m.userLE q a 4

/-- The string `s` and a NUL after it lie at user address `a`, between `low` and `high`. -/
def Mem.StringIn (m : Mem) (q low high a : ℕ) (s : List Byte) : Prop :=
  low ≤ a ∧ a + s.length + 1 ≤ high ∧ ∀ j (inside : j < (s ++ [0]).length), m.userByte q (a + j) =
    (s ++ [0])[j]

/-- What `main` finds at `esp`, all of it in the last page below `sz`. -/
structure ArgStack (m : Mem) (q sz sp : ℕ) (argv : List (List Byte)) : Prop where
  accessible : Accessible m q (sz / PGSIZE - 1)
  aligned : sz % PGSIZE = 0
  low : sz - PGSIZE ≤ sp
  high : sp + 12 ≤ sz
  returnPc : m.userWord q sp = 0xffffffff
  argc : m.userWord q (sp + 4) = argv.length
  tableLow : sz - PGSIZE ≤ m.userWord q (sp + 8)
  tableHigh : m.userWord q (sp + 8) + 4 * (argv.length + 1) ≤ sz
  strings : ∀ i (inside : i < argv.length),
    m.StringIn q (sz - PGSIZE) sz (m.userWord q (m.userWord q (sp + 8) + 4 * i)) argv[i]
  last : m.userWord q (m.userWord q (sp + 8) + 4 * argv.length) = 0

/-! ## Where a copy goes -/

/-- The page that has to be accessible for a copy that does not fit above `base`, or wraps around.
-/
theorem fits_of_accessible {A : ℕ → Prop} (aligned : base % PGSIZE = 0) (large : 2 * PGSIZE ≤ base)
    (small : base + PGSIZE ≤ KERNBASE) (multiple : sp % 4 = 0) (low : base ≤ sp) (some : 0 < n)
    (high : sp ≤ base + PGSIZE) (place : va = (sp + 2 ^ 32 - n % 2 ^ 32) % 2 ^ 32 / 4 * 4)
    (zero : ¬A 0) (guard : ¬A (base / PGSIZE - 1)) (all : ∀ i < pageCount va n, A (nthPage va i)) :
    base ≤ va ∧ va + n ≤ sp := by
  have count : pageCount va n = (va % PGSIZE + n + PGSIZE - 1) / PGSIZE := if_neg some.ne'
  rw [count] at all
  simp only [nthPage, PGSIZE, KERNBASE] at *
  by_cases long : 2 ^ 32 ≤ n
  · -- The range goes around the whole address space.
    refine absurd (all ((base / 4096 - 1 + 2 ^ 20 - va / 4096) % 2 ^ 20) (by omega)) ?_
    rwa [show (va / 4096 + (base / 4096 - 1 + 2 ^ 20 - va / 4096) % 2 ^ 20) % 2 ^ 20 =
      base / 4096 - 1 by omega]
  · rw [Nat.mod_eq_of_lt (Nat.not_le.mp long)] at place
    by_cases wraps : sp < n
    · -- The range goes around the end of the address space.
      have past : 2 ^ 32 < va + n ∧ va < 2 ^ 32 := by omega
      refine absurd (all ((2 ^ 20 - va / 4096) % 2 ^ 20) (by omega)) ?_
      rwa [show (va / 4096 + (2 ^ 20 - va / 4096) % 2 ^ 20) % 2 ^ 20 = 0 by omega]
    · have inside : va + n ≤ sp := by omega
      refine ⟨?_, inside⟩
      by_contra under
      refine absurd (all (base / 4096 - 1 - va / 4096) (by omega)) ?_
      rwa [show (va / 4096 + (base / 4096 - 1 - va / 4096)) % 2 ^ 20 = base / 4096 - 1 by omega]

/-- A copy within a page. -/
theorem copyout_one_page (accessible : Accessible m q (va / PGSIZE)) (some : bytes.length ≠ 0)
    (word : va < 2 ^ 32) (fits : va % PGSIZE + bytes.length ≤ PGSIZE) : copyout q va bytes m =
      .ok (true, m.fill (pteAddr (m.pte q (va / PGSIZE)))
        (Bytes.move (m.page (pteAddr (m.pte q (va / PGSIZE)))) (va % PGSIZE) bytes.length fun j =>
          bytes.getD j 0)) := by
  have offset : va - PGROUNDDOWN va = va % PGSIZE := by
    simp only [PGROUNDDOWN, PGSIZE]
    omega
  have first : firstBytes va bytes.length = bytes.length := by
    rw [firstBytes, offset]
    omega
  have done : Meets (copyout q va bytes) m (fun _ => False) fun r m' => r = true ∧
      m' = m.fill (pteAddr (m.pte q (va / PGSIZE)))
        (Bytes.move (m.page (pteAddr (m.pte q (va / PGSIZE)))) (va % PGSIZE) bytes.length fun j =>
          bytes.getD j 0) := by
    refine meets_copyout_step word some ?_ ?_ fun _ => ?_
    · exact fun noTable => noTable accessible.hasTable
    · exact fun _ notAccessible => absurd accessible notAccessible
    · rw [first, offset, List.drop_length, copyout, dif_pos List.length_nil]
      exact meets_pure ⟨rfl, rfl⟩
  rcases done.returns fun _ => id with ⟨_, _, returned, rfl, rfl⟩
  exact returned

/-- The page of the user stack starts at `base`, and the page before it is not the user's. -/
structure StackPage (m : Mem) (q base : ℕ) : Prop where
  separate : Separate m q
  aligned : base % PGSIZE = 0
  large : 2 * PGSIZE ≤ base
  small : base + PGSIZE ≤ KERNBASE
  zero : ¬Accessible m q 0
  guard : ¬Accessible m q (base / PGSIZE - 1)
  accessible : Accessible m q (base / PGSIZE)

/-- Memory with other contents of the stack page. -/
def Mem.withStack (m : Mem) (q base : ℕ) (c : Page) :
    Mem := m.fill (pteAddr (m.pte q (base / PGSIZE))) c

namespace StackPage

theorem inside (stack : StackPage m q base) : base / PGSIZE < 2 ^ 20 := by
  have small := stack.small
  simp only [KERNBASE, PGSIZE] at *
  omega

theorem pte (stack : StackPage m q base) (inside' : v < 2 ^ 20) :
    (m.withStack q base c).pte q v = m.pte q v :=
  stack.separate.pte stack.inside stack.accessible inside'

theorem accessible_iff (stack : StackPage m q base) (inside' : v < 2 ^ 20) :
    Accessible (m.withStack q base c) q v ↔ Accessible m q v :=
  stack.separate.accessible_iff stack.inside stack.accessible inside'

/-- The stack page stays one, with other contents. -/
theorem withStack (stack : StackPage m q base) : StackPage (m.withStack q base c) q base where
  separate := stack.separate.fill stack.inside stack.accessible
  aligned := stack.aligned
  large := stack.large
  small := stack.small
  zero := fun zero => stack.zero ((stack.accessible_iff (by decide)).mp zero)
  guard := fun guard =>
    stack.guard ((stack.accessible_iff ((Nat.sub_le _ _).trans_lt stack.inside)).mp guard)
  accessible := (stack.accessible_iff stack.inside).mpr stack.accessible

/-- `copyout` to the stack page stores its bytes there. -/
theorem copyout_eq (stack : StackPage m q base) (some : 0 < bytes.length) (above : base ≤ va)
    (fits : va + bytes.length ≤ base + PGSIZE) : copyout q va bytes (m.withStack q base c) =
      .ok (true, m.withStack q base
        (Bytes.move c (va - base) bytes.length fun j => bytes.getD j 0)) := by
  have stack' : StackPage (m.withStack q base c) q base := stack.withStack
  have page : va / PGSIZE = base / PGSIZE ∧ va % PGSIZE = va - base ∧ va < 2 ^ 32 := by
    have aligned := stack.aligned
    have small := stack.small
    simp only [PGSIZE, KERNBASE] at *
    omega
  rw [copyout_one_page (by rw [page.1]; exact stack'.accessible) some.ne' page.2.2
    (by rw [page.2.1]; omega), page.1,
    page.2.1, stack.pte stack.inside]
  simp only [Mem.withStack, Mem.fill, Function.update_idem, Function.update_self]

/-- A copy to the stack that succeeds has changed the contents of the stack page only. -/
theorem copied (stack : StackPage m q base)
    (returned : copyout q va bytes (m.withStack q base c) = .ok (true, m'))
    (some : 0 < bytes.length) (multiple : sp % 4 = 0) (low : base ≤ sp) (high : sp ≤ base + PGSIZE)
    (place : va = (sp + 2 ^ 32 - bytes.length % 2 ^ 32) % 2 ^ 32 / 4 * 4) :
    base ≤ va ∧ va + bytes.length ≤ sp ∧
      m' = m.withStack q base (Bytes.move c (va - base) bytes.length fun j => bytes.getD j 0) := by
  have stack' : StackPage (m.withStack q base c) q base := stack.withStack
  have word : va < 2 ^ 32 := by omega
  have every := ((meets_copyout stack'.separate word).of_ok returned).2.1.mp rfl
  rcases fits_of_accessible stack.aligned stack.large stack.small multiple low some high place
    stack'.zero stack'.guard
    every with ⟨above, below⟩
  rw [stack.copyout_eq some above (below.trans high)] at returned
  cases returned
  exact ⟨above, below, rfl⟩

end StackPage

/-! ## The contents of the stack page -/

/-- The bytes lie at address `a` in a page with contents `c` that starts at `base`. -/
structure Holds (c : Page) (base a : ℕ) (bytes : List Byte) : Prop where
  fits : a + bytes.length ≤ base + PGSIZE
  get : ∀ j < bytes.length, Bytes.get c (a - base + j) = bytes.getD j 0

/-- What is written below leaves it alone. -/
theorem Holds.below {src : ℕ → Byte} (holds : Holds c base a bytes) (low : base ≤ va)
    (below : va + n ≤ a) :
    Holds (Bytes.move c (va - base) n src) base a bytes where
  fits := holds.fits
  get := by
    intro j inside
    rw [Bytes.get_move_of_outside _ _ _ _ (by omega)]
    exact holds.get j inside

theorem holds_move (low : base ≤ va) (fits : va + bytes.length ≤ base + PGSIZE) :
    Holds (Bytes.move c (va - base) bytes.length fun j => bytes.getD j 0) base va bytes where
  fits := fits
  get := by
    intro j inside
    rw [Bytes.get_move _ _ _ _ (by omega), if_pos (by omega), Nat.add_sub_cancel_left]

/-- The strings of `done` have been pushed, to the addresses `args`. -/
structure Pushed (base : ℕ) (c : Page) (sp : ℕ) (done : List (List Byte)) (args : List ℕ) :
    Prop where
  multiple : sp % 4 = 0
  low : base ≤ sp
  high : sp ≤ base + PGSIZE
  few : args.length ≤ MAXARG
  strings : List.Forall₂ (fun arg a => sp ≤ a ∧ Holds c base a (arg ++ [0])) done args

/-- Another argument is pushed. -/
theorem Pushed.push (pushed : Pushed base c sp done args) (room : args.length < MAXARG)
    (low : base ≤ va) (below : va + (arg ++ [0]).length ≤ sp) (multiple : va % 4 = 0) :
    Pushed base (Bytes.move c (va - base) (arg ++ [0]).length fun j => (arg ++ [0]).getD j 0) va
      (done ++ [arg])
      (args ++ [va]) where
  multiple := multiple
  low := low
  high := by
    have high := pushed.high
    omega
  few := by
    rw [List.length_append]
    exact room
  strings := by
    have high := pushed.high
    refine List.rel_append (pushed.strings.imp fun arg a held => ?_)
      (.cons ⟨le_rfl, holds_move low (by omega)⟩ .nil)
    exact ⟨by omega, held.2.below low (below.trans held.1)⟩

/-- The loop over the arguments. -/
theorem StackPage.pushed {r : ℕ × List ℕ} (stack : StackPage m q base)
    (pushed : Pushed base c sp done args)
    (returned : pushArgs q argv sp args (m.withStack q base c) = .ok (some r, m')) :
    ∃ c', m' = m.withStack q base c' ∧ Pushed base c' r.1 (done ++ argv) r.2 := by
  induction argv generalizing c sp done args with
  | nil =>
      cases returned
      rw [List.append_nil]
      exact ⟨c, rfl, pushed⟩
  | cons arg rest ih =>
      rw [pushArgs] at returned
      split at returned
      next => cases returned
      next room =>
        rcases ok_of_bind returned with ⟨copied, m₂, copy, later⟩
        cases copied with
        | false => cases later
        | true =>
            have length : (arg ++ [(0 : Byte)]).length = arg.length + 1 := by simp
            rw [← length] at copy later
            rcases stack.copied copy (by omega) pushed.multiple pushed.low pushed.high rfl
              with ⟨low, below, rfl⟩
            have next := ih (pushed.push (Nat.not_le.mp room) low below (Nat.mul_mod_left _ _))
              later
            rwa [List.append_assoc] at next

/-! ## Reading the stack -/

theorem wordBytes_length (words : List ℕ) : (wordBytes words).length = 4 * words.length := by
  simp [wordBytes, Nat.mul_comm]

/-- Byte `j` of word `i`. -/
theorem getD_wordBytes {words : List ℕ} {i j : ℕ} (inside : i < words.length) (byte : j < 4) :
    (wordBytes words).getD (4 * i + j) 0 = BitVec.ofNat 8 (words[i] / 256 ^ j) := by
  induction words generalizing i with
  | nil => simp at inside
  | cons w words ih =>
      have head : ((List.range 4).map fun i => BitVec.ofNat 8 (w / 256 ^ i)).length = 4 := by simp
      rw [wordBytes, List.flatMap_cons, List.getD_eq_getElem?_getD]
      cases i with
      | zero =>
          rw [List.getElem?_append_left (by omega)]
          simp [byte]
      | succ i =>
          rw [List.getElem?_append_right (by omega), head,
            show 4 * (i + 1) + j - 4 = 4 * i + j by omega,
            ← List.getD_eq_getElem?_getD]
          exact ih (by simpa using inside)

/-- A number is read from its bytes. -/
theorem Mem.userLE_eq {k : ℕ} (read : ∀ j < k, m.userByte q (a + j) =
      BitVec.ofNat 8 (w / 256 ^ j)) :
    m.userLE q a k = w % 256 ^ k := by
  induction k generalizing a w with
  | zero => simp [Mem.userLE, Nat.mod_one]
  | succ k ih =>
      have rest : m.userLE q (a + 1) k = w / 256 % 256 ^ k := by
        refine ih fun j below => ?_
        rw [show a + 1 + j = a + (j + 1) by
          omega, read (j + 1) (by omega), pow_succ', Nat.div_div_eq_div_mul]
      have first : (m.userByte q a).toNat = w % 256 := by
        rw [← Nat.add_zero a, read 0 (Nat.succ_pos k)]
        simp
      rw [Mem.userLE, rest, first, pow_succ', Nat.mod_mul]

/-- What the process reads in its stack page. -/
theorem StackPage.userByte (stack : StackPage m q base) (low : base ≤ a)
    (high : a < base + PGSIZE) :
    (m.withStack q base c).userByte q a = Bytes.get c (a - base) := by
  have aligned := stack.aligned
  have page : a / PGSIZE = base / PGSIZE ∧ a % PGSIZE = a - base := by
    simp only [PGSIZE] at *
    omega
  rw [Mem.userByte, page.1, stack.pte stack.inside, Mem.withStack, Mem.fill_page_self, Bytes.get,
    dif_pos (by omega)]
  exact congrArg c (Fin.ext page.2)

/-- A string in the stack page is one for the process. -/
theorem StackPage.string (stack : StackPage m q base) (low : base ≤ a)
    (holds : Holds c base a (arg ++ [0])) :
    (m.withStack q base c).StringIn q base (base + PGSIZE) a arg := by
  have fits := holds.fits
  have length : (arg ++ [(0 : Byte)]).length = arg.length + 1 := by simp
  refine ⟨low, by omega, fun j inside => ?_⟩
  rw [stack.userByte (by omega) (by omega), show a + j - base = a - base + j by
    omega, holds.get j inside,
    List.getD_eq_getElem?_getD, List.getElem?_eq_getElem inside, Option.getD_some]

/-- A word in the stack page is one for the process. -/
theorem StackPage.word {words : List ℕ} {i : ℕ} (stack : StackPage m q base) (low : base ≤ a)
    (holds : Holds c base a (wordBytes words)) (entry : words[i]? = some w) (small : w < 2 ^ 32) :
    (m.withStack q base c).userWord q (a + 4 * i) = w := by
  rcases List.getElem?_eq_some_iff.mp entry with ⟨inside, rfl⟩
  have fits := holds.fits
  rw [wordBytes_length] at fits
  rw [← Nat.mod_eq_of_lt small]
  refine Mem.userLE_eq fun j below => ?_
  rw [stack.userByte (by omega) (by omega),
    show a + 4 * i + j - base = a - base + (4 * i + j) by omega,
    holds.get _ (by rw [wordBytes_length]; omega), getD_wordBytes inside below]

/-- The words from `esp` on. -/
def argWords (esp : ℕ) (args : List ℕ) :
    List ℕ := [0xffffffff, args.length, esp + 12] ++ args ++ [0]

theorem argWords_length {esp : ℕ} : (argWords esp args).length = args.length + 4 := by
  simp [argWords]

theorem argWords_arg {esp i : ℕ} (inside : i < args.length) :
    (argWords esp args)[i + 3]? = some args[i] := by
  simp [argWords, List.getElem?_append_left inside]

theorem argWords_last {esp : ℕ} : (argWords esp args)[args.length + 3]? = some 0 := by
  simp [argWords]

/-- The words and the strings make an argument stack. -/
theorem StackPage.argStack {esp : ℕ} (stack : StackPage m q base) (low : base ≤ esp)
    (words : Holds c base esp (wordBytes (argWords esp args)))
    (strings : List.Forall₂ (fun arg a => base ≤ a ∧ Holds c base a (arg ++ [0])) argv args) :
    ArgStack (m.withStack q base c) q (base + PGSIZE) esp argv := by
  have count : argv.length = args.length := strings.length_eq
  have small : base + PGSIZE < 2 ^ 32 := stack.small.trans_lt (by decide)
  have fits : esp + 4 * (args.length + 4) ≤ base + PGSIZE := by
    have fits := words.fits
    rwa [wordBytes_length, argWords_length] at fits
  have argc : (m.withStack q base c).userWord q (esp + 4 * 1) = args.length :=
    stack.word low words rfl (by omega)
  have table : (m.withStack q base c).userWord q (esp + 4 * 2) = esp + 12 :=
    stack.word low words rfl (by omega)
  have pointer : ∀ i (inside : i < args.length), args[i] < 2 ^ 32 →
      (m.withStack q base c).userWord q (esp + 12 + 4 * i) = args[i] := by
    intro i inside small
    rw [show esp + 12 + 4 * i = esp + 4 * (i + 3) by omega]
    exact stack.word low words (argWords_arg inside) small
  have top : (base + PGSIZE) / PGSIZE - 1 = base / PGSIZE := by
    rw [Nat.add_div_right _ (by decide), Nat.succ_sub_one]
  have start : base + PGSIZE - PGSIZE = base := Nat.add_sub_cancel _ _
  refine ⟨?_, ?_, ?_, ?_, ?_, ?_, ?_, ?_, ?_, ?_⟩
  · rw [top]
    exact stack.withStack.accessible
  · rw [Nat.add_mod_right, stack.aligned]
  · rwa [start]
  · omega
  · have first : (argWords esp args)[0]? = some 0xffffffff := rfl
    have read := stack.word low words first (by decide)
    rwa [Nat.mul_zero, Nat.add_zero] at read
  · rw [count]
    exact argc
  · rw [start, table]
    omega
  · rw [table, count]
    omega
  · intro i inside
    rw [count] at inside
    rcases strings.get (by rw [count]; exact inside) inside with ⟨behind, held⟩
    simp only [List.get_eq_getElem] at behind held
    have fits := held.fits
    rw [table, pointer i inside (by omega), start]
    exact stack.string behind held
  · rw [table, count, show esp + 12 + 4 * args.length = esp + 4 * (args.length + 3) by omega]
    exact stack.word low words argWords_last (by decide)

/-- The addresses that `exec` computes below the strings. -/
theorem below_strings (large : 2 * PGSIZE ≤ sp) (small : sp ≤ KERNBASE) (multiple : sp % 4 = 0)
    (few : n ≤ MAXARG) :
    (sp + 2 ^ 32 - (3 + n + 1) * 4) % 2 ^ 32 + 4 * (n + 4) = sp ∧
      (sp + 2 ^ 32 - (n + 1) * 4) % 2 ^ 32 = (sp + 2 ^ 32 - (3 + n + 1) * 4) % 2 ^ 32 + 12 ∧
      (sp + 2 ^ 32 - (3 + n + 1) * 4) % 2 ^ 32 =
        (sp + 2 ^ 32 - 4 * (n + 4) % 2 ^ 32) % 2 ^ 32 / 4 * 4 := by
  simp only [PGSIZE, KERNBASE, MAXARG] at *
  omega

/-- The last copy puts the words below the strings. -/
theorem StackPage.pushStack {r : Option ℕ} {esp : ℕ} (stack : StackPage m q base)
    (pushed : Pushed base c sp argv args)
    (returned : Vm.pushStack q sp args (m.withStack q base c) = .ok (r, m')) (some : r = some esp) :
    ∃ c', m' = m.withStack q base c' ∧ ArgStack m' q (base + PGSIZE) esp argv := by
  rcases pushed with ⟨multiple, low, high, few, strings⟩
  have small := high.trans stack.small
  rcases below_strings (stack.large.trans low) small multiple few with ⟨bottom, table, place⟩
  rcases ok_of_bind returned with ⟨copied, m₂, copy, later⟩
  rw [table] at copy
  generalize (sp + 2 ^ 32 - (3 + args.length + 1) * 4) % 2 ^ 32 = esp' at bottom place copy later
  change copyout q esp' (wordBytes (argWords esp' args)) _ = _ at copy
  cases copied with
  | false =>
      cases later
      cases some
  | true =>
      cases later
      cases some
      have length : (wordBytes (argWords esp args)).length = 4 * (args.length + 4) := by
        rw [wordBytes_length, argWords_length]
      rw [← length] at place
      rcases stack.copied copy (by rw [length]; omega) multiple low high place
        with ⟨above, below, rfl⟩
      refine ⟨_, rfl, stack.argStack above (holds_move above (below.trans high))
        (strings.imp fun arg a held => ?_)⟩
      exact ⟨low.trans held.1, held.2.below above (below.trans held.1)⟩

/-! ## exec -/

attribute [local irreducible] makeStack

/-- What `exec` has done when it comes to copy the arguments. -/
structure Prepared (L : Link) (img : Image) (pgdir sz : ℕ) (m₀ m : Mem) : Prop where
  stages : ∃ loaded m₁ m₂, setupkvm L m₀ = .ok (some pgdir, m₁) ∧
    loadSegments L img pgdir (ElfHdr.decode (img.readi 0 ElfHdr.size)).phnum
      (ElfHdr.decode (img.readi 0 ElfHdr.size)).phoff PGSIZE m₁ = .ok (some loaded, m₂) ∧
    makeStack L pgdir loaded m₂ = .ok (some sz, m)

/-- Outside the stack page `exec` has not changed the new address space since `m`. -/
def OnlyStack (q sz : ℕ) (m m' : Mem) : Prop :=
  ∀ v < USERTOP, v ≠ sz / PGSIZE - 1 →
    m'.pte q v = m.pte q v ∧ (m.pte q v ≠ 0 →
      m'.page (pteAddr (m.pte q v)) = m.page (pteAddr (m.pte q v)))

theorem top_page (large : PGSIZE ≤ sz) : (sz - PGSIZE) / PGSIZE = sz / PGSIZE - 1 := by
  simp only [PGSIZE] at *
  omega

theorem Guarded.page_le (guarded : Guarded m q sz) : PGSIZE ≤ sz :=
  (Nat.le_mul_of_pos_left PGSIZE (by decide)).trans guarded.large

/-- The last page of a new image is its stack. -/
theorem Fresh.stackPage (fresh : Fresh L q sz m₀ m o₀ o) (guarded : Guarded m q sz) :
    StackPage m q (sz - PGSIZE) := by
  have aligned := guarded.aligned
  have large := guarded.large
  have small := fresh.small
  have top := top_page guarded.page_le
  have under : (sz - PGSIZE) / PGSIZE - 1 = sz / PGSIZE - 2 := by rw [top, Nat.sub_sub]
  refine ⟨.of_private fresh.owned fresh.isDir fresh.own, ?_, ?_, ?_, ?_, ?_, ?_⟩
  · rw [← Nat.mod_eq_sub_mod (by simp only [PGSIZE] at *; omega), aligned]
  · simp only [PGSIZE] at *
    omega
  · simp only [PGSIZE] at *
    omega
  · rintro ⟨here, _⟩
    rw [fresh.first] at here
    cases here
  · rw [under]
    rintro ⟨_, user⟩
    rw [guarded.guard] at user
    cases user
  · rw [top]
    exact ⟨guarded.here, guarded.user⟩

/-- No other user address leads to the stack page. -/
theorem Fresh.apart (fresh : Fresh L q sz m₀ m o₀ o) (guarded : Guarded m q sz)
    (below : v < USERTOP) (other : v ≠ sz / PGSIZE - 1) :
    pteAddr (m.pte q v) ≠ pteAddr (m.pte q (sz / PGSIZE - 1)) := by
  have small := fresh.small
  have large := guarded.large
  have user : sz / PGSIZE - 1 < USERTOP := by
    simp only [USERTOP, KERNBASE, PGSIZE] at *
    omega
  have owner := (fresh.own _ user).resolve_left (ne_zero_of_present guarded.here)
  intro same
  rcases fresh.own v below with zero | owner'
  · rw [zero] at same
    exact fresh.owned.page_pos (by rw [owner]; nofun) same.symm
  · rw [same, owner] at owner'
    cases owner'
    exact other rfl

/-- What is prepared is fresh. -/
theorem Prepared.fresh (prepared : Prepared L img q sz m₀ m) (owned : Owned L m₀ o₀) :
    ∃ o, Fresh L q sz m₀ m (quiesced o₀) o ∧ Guarded m q sz := by
  rcases prepared.stages with ⟨loaded, m₁, m₂, made, segments, stack⟩
  rcases owned.fresh made with ⟨o₁, fresh₁⟩
  rcases fresh₁.meets_loadSegments.of_ok segments with ⟨_, o₂, fresh₂, same⟩
  cases same _ rfl
  have made : Meets (makeStack L q loaded) m₂ (fun _ => True) _ := fresh₂.meets_makeStack
  rcases made.of_ok stack with ⟨⟨⟨_, o, fresh, same⟩, guarded⟩, _⟩
  cases same _ rfl
  exact ⟨o, fresh, guarded sz rfl⟩

/-- What is on the stack decodes to the arguments, and nothing else has been touched. -/
theorem Fresh.argStack (fresh : Fresh L q sz m₀ m o₀ o) (guarded : Guarded m q sz)
    (copied : copyArgs q sz argv m = .ok (some sp, m')) :
    ArgStack m' q sz sp argv ∧ OnlyStack q sz m m' := by
  have stack := fresh.stackPage guarded
  have size := Nat.sub_add_cancel guarded.page_le
  have top := top_page guarded.page_le
  have start : Pushed (sz - PGSIZE) (m.page (pteAddr (m.pte q ((sz - PGSIZE) / PGSIZE)))) sz []
      [] := by
    refine ⟨?_, Nat.sub_le _ _, size.ge, Nat.zero_le _, .nil⟩
    exact Nat.mod_eq_zero_of_dvd
      (Dvd.dvd.trans (by decide) (Nat.dvd_of_mod_eq_zero guarded.aligned))
  have same : m = m.withStack q (sz - PGSIZE)
      (m.page (pteAddr (m.pte q ((sz - PGSIZE) / PGSIZE)))) := by
    rw [Mem.withStack, Mem.fill, Function.update_eq_self]
  rcases ok_of_bind copied with ⟨pushed, m₁, strings, copied⟩
  cases pushed with
  | none => cases copied
  | some pushed =>
      rw [same] at strings
      rcases stack.pushed start strings with ⟨c, rfl, pushed⟩
      rcases stack.pushStack pushed copied rfl with ⟨c', rfl, argStack⟩
      rw [size] at argStack
      refine ⟨argStack, fun v below other => ?_⟩
      have inside := inside_of_user below
      rw [stack.pte inside]
      refine ⟨rfl, fun _ => Mem.fill_page_of_ne ?_ _⟩
      rw [top]
      exact fresh.apart guarded below other

/-! ## Reading the stack page -/

theorem Mem.userLE_congr {k : ℕ} (same : ∀ j < k, m'.userByte q (a + j) = m.userByte q (a + j)) :
    m'.userLE q a k = m.userLE q a k := by
  induction k generalizing a with
  | zero => rfl
  | succ k ih =>
      have rest : ∀ j < k, m'.userByte q (a + 1 + j) = m.userByte q (a + 1 + j) := by
        intro j less
        rw [Nat.add_assoc, Nat.add_comm 1 j]
        exact same (j + 1) (Nat.succ_lt_succ less)
      have first : m'.userByte q a = m.userByte q a := same 0 (Nat.succ_pos k)
      rw [Mem.userLE, Mem.userLE, first, ih rest]

/-- The stack is read in the last page below `sz` only. -/
theorem ArgStack.congr (argStack : ArgStack m q sz sp argv)
    (pte : m'.pte q (sz / PGSIZE - 1) = m.pte q (sz / PGSIZE - 1))
    (same : ∀ a, sz - PGSIZE ≤ a → a < sz → m'.userByte q a = m.userByte q a) :
    ArgStack m' q sz sp argv := by
  have word : ∀ a, sz - PGSIZE ≤ a → a + 4 ≤ sz → m'.userWord q a = m.userWord q a :=
    fun a low high => Mem.userLE_congr fun j less =>
      same _ (low.trans (Nat.le_add_right a j)) (by omega)
  have low := argStack.low
  have high := argStack.high
  have tableLow := argStack.tableLow
  have tableHigh := argStack.tableHigh
  have table := word (sp + 8) (by omega) high
  refine ⟨?_, argStack.aligned, low, high, ?_, ?_, ?_, ?_, fun i inside => ?_, ?_⟩
  · rw [Accessible, pte]
    exact argStack.accessible
  · exact (word sp low (by omega)).trans argStack.returnPc
  · exact (word (sp + 4) (by omega) (by omega)).trans argStack.argc
  · rw [table]
    exact tableLow
  · rw [table]
    exact tableHigh
  · rw [table, word (m.userWord q (sp + 8) + 4 * i) (by omega) (by omega)]
    rcases argStack.strings i inside with ⟨begins, ends, bytes⟩
    refine ⟨begins, ends, fun j within => (same _ (by omega) ?_).trans (bytes j within)⟩
    rw [List.length_append, List.length_singleton] at within
    omega
  · rw [table, word (m.userWord q (sp + 8) + 4 * argv.length) (by omega) (by omega)]
    exact argStack.last

/-- The header of a program without segments. -/
def emptyProgram : List Byte := [0x7F, 0x45, 0x4C, 0x46] ++ List.replicate 48 0

/-- With room on the page the pushes succeed. -/
theorem StackPage.pushStack_ok (stack : StackPage m q base) (multiple : sp % 4 = 0)
    (few : args.length ≤ MAXARG) (low : base + 4 * (args.length + 4) ≤ sp)
    (high : sp ≤ base + PGSIZE) :
    ∃ esp m', Vm.pushStack q sp args (m.withStack q base c) = .ok (some esp, m') := by
  have large := stack.large.trans ((Nat.le_add_right _ _).trans low)
  rcases below_strings large (high.trans stack.small) multiple few with ⟨bottom, table, _⟩
  simp only [Vm.pushStack, table]
  generalize (sp + 2 ^ 32 - (3 + args.length + 1) * 4) % 2 ^ 32 = esp at bottom ⊢
  have length : (wordBytes (argWords esp args)).length = 4 * (args.length + 4) := by
    rw [wordBytes_length, argWords_length]
  have copied : copyout q esp (wordBytes (argWords esp args)) (m.withStack q base c) = _ :=
    stack.copyout_eq (by rw [length]; omega) (by omega) (by rw [length]; omega)
  exact ⟨esp, _, bind_of_ok copied⟩

/-- A short argument finds room. -/
theorem StackPage.runs (stack : StackPage m q base) (sp : base + PGSIZE = sz) :
    ∃ esp m', copyArgs q sz [[0x61]] m = .ok (some esp, m') := by
  have multiple : sz % 4 = 0 := by
    have aligned := stack.aligned
    simp only [PGSIZE] at *
    omega
  have small := stack.small
  have same : m = m.withStack q base (m.page (pteAddr (m.pte q (base / PGSIZE)))) := by
    rw [Mem.withStack, Mem.fill, Function.update_eq_self]
  obtain ⟨va, place⟩ : ∃ va, va =
      (sz + 2 ^ 32 - (([0x61] : List Byte).length + 1) % 2 ^ 32) % 2 ^ 32 / 4 * 4 := ⟨_, rfl⟩
  have near : va + 4 = sz := by
    simp only [List.length_singleton, PGSIZE, KERNBASE] at *
    omega
  have first : copyout q va ([0x61] ++ [0])
      (m.withStack q base (m.page (pteAddr (m.pte q (base / PGSIZE))))) = _ :=
    stack.copyout_eq (by decide) (by simp only [PGSIZE] at *; omega)
      (by simp only [List.length_append, List.length_singleton]; omega)
  rw [← same] at first
  generalize Bytes.move _ _ _ _ = c at first
  have strings : pushArgs q [[0x61]] sz [] m = .ok (some (va, [va]), m.withStack q base c) := by
    rw [pushArgs, if_neg (by decide), ← place, bind_of_ok first]
    rfl
  have pushed : ∃ esp m', Vm.pushStack q va [va] (m.withStack q base c) = .ok (some esp, m') := by
    apply stack.pushStack_ok
    · omega
    · exact (by decide : 1 ≤ MAXARG)
    · simp only [List.length_singleton, PGSIZE] at *
      omega
    · omega
  rcases pushed with ⟨esp, m', pushed⟩
  rw [copyArgs, bind_of_ok strings]
  exact ⟨esp, m', pushed⟩

/-- Three pages are enough for the stack of a program without segments. -/
theorem Fresh.makeStack_ok (fresh : Fresh L q PGSIZE m₀ m o₀ o) (ample : Ample 3 m) :
    ∃ sz m' o', makeStack L q PGSIZE m = .ok (some sz, m') ∧ Fresh L q sz m₀ m' o₀ o' ∧
      Guarded m' q sz := by
  have tables : ∀ v ∈ Set.Ico (pages PGSIZE) (pages PGSIZE + 2), v / NPTENTRIES ∈
      ({0} : Finset ℕ) := by
    intro v mem
    rw [Set.mem_Ico, show pages PGSIZE = 1 by decide] at mem
    rw [Finset.mem_singleton, NPTENTRIES]
    omega
  have made : Meets (makeStack L q PGSIZE) m (fun _ => False) fun r m' =>
      ∃ sz o', r = some sz ∧ Fresh L q sz m₀ m' o₀ o' ∧ Guarded m' q sz := by
    refine fresh.meets_makeStack.mono (fun _ => id) fun r m' made => ?_
    rcases made with ⟨⟨⟨sz, o', fresh', size⟩, guarded⟩, room⟩
    cases r with
    | none =>
        rcases room rfl (by decide) {0} tables with ⟨k, less, fails⟩
        rw [missing_singleton] at less
        refine absurd fails (ample.not_failsAt ?_)
        split_ifs at less
        all_goals omega
    | some _ =>
        cases size _ rfl
        exact ⟨_, o', rfl, fresh', guarded _ rfl⟩
  rcases made.returns fun _ => id with ⟨_, m', returned, sz, o', rfl, outcome⟩
  exact ⟨sz, m', o', returned, outcome⟩

/-- Where the second page of the stack cannot be had, there is no stack. -/
theorem Fresh.makeStack_none (fresh : Fresh L q PGSIZE m₀ m o₀ o) (fails : FailsAt 1 m) :
    Meets (makeStack L q PGSIZE) m E fun r m' =>
      r = none ∧ m'.failed = true ∧ ∃ o', Fresh L q PGSIZE m₀ m' o₀ o' := by
  have count : pages PGSIZE = 1 ∧ pages (3 * PGSIZE) = 3 := by decide
  have stops : Meets (allocuvm L q PGSIZE (3 * PGSIZE)) m (fun _ => True) fun r m' =>
      r = 0 ∧ m'.failed = true := by
    refine Vm.meets_allocuvm fresh.owned fresh.isDir (fun _ v mem => ?_)
      (fun large => absurd large (by decide)) (fun less => absurd less (by decide))
      (fun _ _ _ _ restored => ⟨rfl, restored.failed⟩) fun _ _ m' o' grown => ?_
    · rw [count.1, count.2] at mem
      exact fresh.above v (count.1 ▸ mem.1) (mem.2.trans (by decide))
    · -- With both pages there, two calls of `kalloc` would have succeeded.
      rw [count.1, count.2] at grown
      have table : m'.entry q 0 ≠ 0 := by
        intro absent
        have here := grown.present (x := 1) (by rw [Set.mem_Ico]; decide)
        rw [Mem.pte_of_none absent] at here
        cases here
      have tables : ∀ v ∈ Set.Ico 1 3, v / NPTENTRIES ∈ ({0} : Finset ℕ) := by
        intro v mem
        rw [Set.mem_Ico] at mem
        rw [Finset.mem_singleton, NPTENTRIES]
        omega
      rcases grown.drawn {0} tables with ⟨c, allocs, drawn⟩
      rw [missing_singleton, missing_singleton, if_neg table] at drawn
      have := allocs.le_of_failsAt fails
      omega
  rw [makeStack, show PGROUNDUP PGSIZE = PGSIZE by decide,
    show PGSIZE + 2 * PGSIZE = 3 * PGSIZE by decide]
  refine meets_bind (Meets.and_then stops (fresh.meets_allocuvm (fun m' o' fresh' _ => ?_)
    fun m' o' _ _ _ => ?_))
  · exact fun both => meets_ite (fun _ => meets_pure ⟨rfl, both.2, o', fresh'⟩)
      fun nonzero => absurd rfl nonzero
  · exact fun both => absurd both.1 (by decide)

theorem decode_emptyProgram :
    ElfHdr.decode ((Image.ofBytes emptyProgram).readi 0 ElfHdr.size) = ⟨ELF_MAGIC, 0, 0, 0⟩ := by
  rw [ElfHdr.decode, ElfHdr.mk.injEq]
  decide +kernel

end Xv6.Vm
