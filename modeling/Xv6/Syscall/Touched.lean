import Xv6.Syscall.Args

/-!
# System calls stay inside the caller's memory

Each loop stays inside its buffer, whatever it finds in the kernel, and `argptr` has checked
that the buffer lies below `sz`. The check of `sys_getpinfo` is for the size of a pointer,
and not for that of the table that is stored there.
-/

namespace Xv6.Syscall

open Ipc (Pipe)
open Fs (chunk T_DEV T_CHECKED)
open Vm (KERNBASE)

variable {s : Proc} {k : Kernel} {v : Visit} {f : File} {p a addr size : Word} {n m i j tot off : ℕ}
  {turns visit : ℕ}

/-- An address in the buffer of `n` bytes at `p`. -/
def InBuffer (p : Word) (n : ℕ) (a : Word) : Prop := ∃ i < n, a = p + BitVec.ofNat 32 i

theorem at_add (p : Word) (i j : ℕ) :
    p + BitVec.ofNat 32 i + BitVec.ofNat 32 j = p + BitVec.ofNat 32 (i + j) := by
  rw [BitVec.add_assoc, ← BitVec.ofNat_add]

theorem at_zero (p : Word) : p + BitVec.ofNat 32 0 = p := BitVec.add_zero p

theorem inBuffer_of_span (fits : i + m ≤ n) (mem : a ∈ span (p + BitVec.ofNat 32 i) m) :
    InBuffer p n a := by
  rcases List.mem_map.mp mem with ⟨j, inside, rfl⟩
  exact ⟨i + j, by have := List.mem_range.mp inside; omega, at_add p i j⟩

theorem inBuffer_of_span_zero (fits : m ≤ n) (mem : a ∈ span p m) : InBuffer p n a := by
  refine inBuffer_of_span (i := 0) (m := m) (by omega) ?_
  rwa [at_zero]

/-! ## The loops -/

/-- A stretch of `pipewrite` stores no more than there is. -/
theorem pipewrite_length (killed : Bool) (n : ℤ) (pipe : Pipe) (rest : List Byte) :
    (Ipc.pipewrite killed n pipe rest).bytes.length ≤ rest.length ∧
      ∀ n' rest' woken, (Ipc.pipewrite killed n pipe rest).call = .writing n' rest' woken →
        (Ipc.pipewrite killed n pipe rest).bytes.length + rest'.length = rest.length := by
  induction rest generalizing pipe with
  | nil =>
      refine ⟨le_rfl, fun n' rest' woken call => ?_⟩
      cases call
  | cons b rest ih =>
      rw [Ipc.pipewrite]
      split_ifs with full dies
      · exact ⟨Nat.zero_le _, fun n' rest' woken call => by cases call⟩
      · refine ⟨Nat.zero_le _, fun n' rest' woken call => ?_⟩
        cases call
        simp
      · rcases ih { pipe with
          data := Function.update pipe.data (Fin.ofNat Ipc.PIPESIZE pipe.nwrite.toNat) b
          nwrite := pipe.nwrite + 1 } with ⟨le, call⟩
        refine ⟨Nat.succ_le_succ le, fun n' rest' woken is => ?_⟩
        have total := call n' rest' woken is
        simp only [List.length_cons]
        omega

/-- `pipewrite` reads from its buffer. -/
theorem pipewrite_inBuffer {ret : ℤ} {rest : List Byte} {sleeps : List (Pipe × Bool)}
    {found : Pipe × Bool} (fits : i + rest.length ≤ n)
    (mem : a ∈ pipewrite (p + BitVec.ofNat 32 i) ret rest found sleeps) : InBuffer p n a := by
  induction sleeps generalizing i rest found with
  | nil =>
      have length := (pipewrite_length found.2 ret found.1 rest).1
      exact inBuffer_of_span (by omega) mem
  | cons next sleeps ih =>
      rcases pipewrite_length found.2 ret found.1 rest with ⟨length, call⟩
      rw [pipewrite] at mem
      rcases List.mem_append.mp mem with now | later
      · exact inBuffer_of_span (by omega) now
      · split at later
        case h_1 n' rest' woken is =>
          have total := call n' rest' woken is
          rw [at_add] at later
          exact ih (by omega) later
        case h_2 => cases later

theorem copy_length (pipe : Pipe) (n : ℕ) : (Ipc.copy pipe n).1.length ≤ n := by
  induction n generalizing pipe with
  | zero => exact le_rfl
  | succ n ih =>
      rw [Ipc.copy]
      split_ifs
      · exact Nat.zero_le _
      · exact Nat.succ_le_succ (ih _)

theorem piperead_length (killed : Bool) (n : ℤ) (pipe : Pipe) :
    (Ipc.piperead killed n pipe).bytes.length ≤ n.toNat := by
  rw [Ipc.piperead]
  split_ifs
  · exact Nat.zero_le _
  · exact Nat.zero_le _
  · exact copy_length _ _

/-- `piperead` writes to its buffer. -/
theorem piperead_inBuffer {count : ℤ} {sleeps : List (Pipe × Bool)} {found : Pipe × Bool}
    (fits : count.toNat ≤ n) (mem : a ∈ piperead p count found sleeps) : InBuffer p n a := by
  induction sleeps generalizing found with
  | nil => exact inBuffer_of_span_zero ((piperead_length _ _ _).trans fits) mem
  | cons next sleeps ih =>
      rw [piperead] at mem
      rcases List.mem_append.mp mem with now | later
      · exact inBuffer_of_span_zero ((piperead_length _ _ _).trans fits) now
      · split at later
        · exact ih later
        · cases later

theorem consoleread_inBuffer {input : List (Option Byte)} (fits : i + m ≤ n)
    (mem : a ∈ consoleread (p + BitVec.ofNat 32 i) m input) : InBuffer p n a := by
  induction input generalizing i m with
  | nil =>
      cases m with
      | zero => cases mem
      | succ m => cases mem
  | cons c input ih =>
      cases m with
      | zero => cases mem
      | succ m =>
          cases c with
          | none => cases mem
          | some c =>
              rw [consoleread] at mem
              split_ifs at mem with eof newline
              · cases mem
              · rw [List.mem_singleton.mp mem]
                exact ⟨i, by omega, rfl⟩
              · rcases List.mem_cons.mp mem with rfl | later
                · exact ⟨i, by omega, rfl⟩
                · rw [show (1 : Word) = BitVec.ofNat 32 1 from rfl, at_add] at later
                  exact ih (by omega) later

theorem chunk_le (n tot off : ℕ) : chunk n tot off ≤ n - tot := Nat.min_le_left _ _

theorem readiLoop_inBuffer (fits : m ≤ n)
    (mem : a ∈ readiLoop v m turns tot off (p + BitVec.ofNat 32 tot)) : InBuffer p n a := by
  induction turns generalizing tot off with
  | zero => cases mem
  | succ turns ih =>
      rw [readiLoop] at mem
      split_ifs at mem with more checked
      · cases mem
      · have le := chunk_le m tot off
        rcases List.mem_append.mp mem with now | later
        · exact inBuffer_of_span (by omega) now
        · rw [at_add] at later
          exact ih later
      · cases mem

/-- The rest of the file is what `readi` cuts the count down to. -/
theorem rest_le {off size count : Word} (inside : ¬(off > size ∨ off + count < off))
    (beyond : off + count > size) : (size - off).toNat ≤ count.toNat := by
  rcases not_or.mp inside with ⟨start, noWrap⟩
  bv_omega

theorem readi_inBuffer {count : Word} (mem : a ∈ readi v p count) : InBuffer p count.toNat a := by
  rw [readi] at mem
  split_ifs at mem with device driver outside beyond
  · rw [← at_zero p] at mem
    exact consoleread_inBuffer (by omega) mem
  · cases mem
  · cases mem
  · rw [← at_zero p] at mem
    exact readiLoop_inBuffer (rest_le outside beyond) mem
  · rw [← at_zero p] at mem
    exact readiLoop_inBuffer le_rfl mem

/-- The loop of `writei` reads from its buffer. -/
theorem writeiLoop_inBuffer (fits : j + m ≤ n)
    (mem : a ∈ (writeiLoop v m turns tot off (p + BitVec.ofNat 32 (j + tot))).2) :
    InBuffer p n a := by
  induction turns generalizing tot off with
  | zero => cases mem
  | succ turns ih =>
      rw [writeiLoop] at mem
      split_ifs at mem with more block
      · have le := chunk_le m tot off
        rcases List.mem_append.mp mem with now | later
        · exact inBuffer_of_span (by omega) now
        · rw [at_add, Nat.add_assoc] at later
          exact ih later
      · cases mem
      · cases mem

theorem writei_inBuffer {count : Word} (fits : j + count.toNat ≤ n)
    (mem : a ∈ (writei v (p + BitVec.ofNat 32 j) count).2) : InBuffer p n a := by
  rw [writei] at mem
  split_ifs at mem
  · exact inBuffer_of_span fits mem
  · cases mem
  · cases mem
  · cases mem
  · exact writeiLoop_inBuffer fits mem

theorem writePieces_inBuffer (small : n < 2 ^ 32)
    (mem : a ∈ writePieces k p n turns visit i) : InBuffer p n a := by
  induction turns generalizing visit i with
  | zero => cases mem
  | succ turns ih =>
      rw [writePieces] at mem
      split_ifs at mem with more
      · rcases List.mem_append.mp mem with now | later
        · refine writei_inBuffer ?_ now
          rw [BitVec.toNat_ofNat, Nat.mod_eq_of_lt (by omega)]
          omega
        · split_ifs at later
          · exact ih later
          · cases later
      · cases mem

/-! ## The calls -/

/-- `fileread` writes to its buffer. -/
theorem fileread_inBuffer {count : Word} (mem : a ∈ fileread k f p count)
    (positive : 0 ≤ count.toInt) : InBuffer p count.toNat a := by
  rw [fileread] at mem
  split_ifs at mem
  · cases mem
  · split at mem
    · refine piperead_inBuffer ?_ mem
      rw [BitVec.toInt_eq_toNat_cond] at positive ⊢
      split_ifs at positive ⊢ <;> omega
    · exact readi_inBuffer mem
    · cases mem

/-- `filewrite` reads from its buffer. -/
theorem filewrite_inBuffer {count : Word} (mem : a ∈ filewrite s k f p count) :
    InBuffer p count.toNat a := by
  rw [filewrite] at mem
  split_ifs at mem
  · cases mem
  · split at mem
    · rw [← at_zero p] at mem
      refine pipewrite_inBuffer ?_ mem
      simp [span]
    · exact writePieces_inBuffer count.isLt mem
    · cases mem

/-- `filestat` writes to its buffer. -/
theorem filestat_inBuffer (mem : a ∈ filestat k f p) : InBuffer p STATSIZE a := by
  rw [filestat] at mem
  split at mem
  case h_2 => cases mem
  case h_1 =>
    rw [stati] at mem
    simp only [List.mem_append] at mem
    rcases mem with ((((dev | ino) | type) | nlink) | size) | checksum
    · exact inBuffer_of_span (i := 4) (by decide) dev
    · exact inBuffer_of_span (i := 8) (by decide) ino
    · exact inBuffer_of_span_zero (by decide) type
    · exact inBuffer_of_span (i := 12) (by decide) nlink
    · exact inBuffer_of_span (i := 16) (by decide) size
    · split_ifs at checksum
      · exact inBuffer_of_span (i := 20) (by decide) checksum
      · cases checksum

theorem span_add (a : Word) (m n : ℕ) :
    span a (m + n) = span a m ++ span (a + BitVec.ofNat 32 m) n := by
  rw [span, List.range_add, List.map_append, List.map_map]
  refine congrArg _ (List.map_congr_left fun i _ => ?_)
  exact (at_add a m i).symm

theorem span_entries (p : Word) (size count : ℕ) :
    ((List.range count).flatMap fun i => span (p + BitVec.ofNat 32 (size * i)) size) =
      span p (size * count) := by
  induction count with
  | zero => rfl
  | succ count ih =>
      rw [List.range_succ, List.flatMap_append, ih, Nat.mul_succ, span_add]
      simp

/-- The whole table is stored. -/
theorem getpinfo_eq (p : Word) : getpinfo p = span p (PSTATSIZE * NPROC) := by
  rw [← span_entries, getpinfo]
  refine List.flatMap_congr fun i _ => ?_
  rw [show PSTATSIZE = 4 + 4 + 4 + 4 from rfl, span_add, span_add, span_add]
  rfl

/-! ## The check of `argptr` -/

theorem argptr_spec (got : s.argptr m size = some p) :
    0 ≤ size.toInt ∧ p < s.sz ∧ ¬p + size > s.sz := by
  rw [Proc.argptr] at got
  rcases Option.bind_eq_some_iff.mp got with ⟨i, _, rest⟩
  split_ifs at rest with fails
  cases rest
  rcases not_or.mp fails with ⟨positive, fails⟩
  rcases not_or.mp fails with ⟨start, stop⟩
  exact ⟨not_lt.mp positive, BitVec.not_le.mp start, stop⟩

theorem toNat_lt_of_positive (positive : 0 ≤ size.toInt) : size.toNat < 2 ^ 31 := by
  rw [BitVec.toInt_eq_toNat_cond] at positive
  split_ifs at positive with small
  · omega
  · have := size.isLt
    omega

/-- A buffer that `argptr` has accepted lies below `sz`. -/
theorem lt_sz_of_inBuffer (user : s.sz.toNat < KERNBASE) (got : s.argptr m size = some p)
    (inside : InBuffer p size.toNat a) : a < s.sz := by
  rcases argptr_spec got with ⟨positive, start, stop⟩
  rcases inside with ⟨i, lt, rfl⟩
  have small := toNat_lt_of_positive positive
  simp only [KERNBASE] at user
  rw [BitVec.lt_def] at start ⊢
  rw [gt_iff_lt, BitVec.lt_def, BitVec.toNat_add] at stop
  rw [BitVec.toNat_add, BitVec.toNat_ofNat]
  omega

/-! ## Every call -/

/-- What `sys_getpinfo` fails to check. -/
def Fits (s : Proc) (call : Call) : Prop :=
  call = .getpinfo → ∀ p, s.argptr 0 POINTERSIZE = some p →
    p.toNat + PSTATSIZE * NPROC ≤ s.sz.toNat

/-- The arguments that a call has fetched when it accesses its buffer. -/
theorem mem_getD_some {x : Option (List Word)} (mem : a ∈ x.getD []) : ∃ l, x = some l ∧ a ∈ l := by
  cases x with
  | none => cases mem
  | some l => exact ⟨l, rfl, mem⟩

/-- But for `getpinfo`, a call touches a buffer that it has checked. -/
theorem touched_inBuffer {call : Call} (notPinfo : call ≠ .getpinfo)
    (mem : a ∈ touched s k call) :
    ∃ i size p, s.argptr i size = some p ∧ InBuffer p size.toNat a := by
  cases call with
  | read =>
      rcases mem_getD_some mem with ⟨l, got, mem⟩
      rcases Option.bind_eq_some_iff.mp got with ⟨f, _, got⟩
      rcases Option.bind_eq_some_iff.mp got with ⟨n, _, got⟩
      rcases Option.bind_eq_some_iff.mp got with ⟨p, pointer, got⟩
      cases got
      exact ⟨1, n, p, pointer, fileread_inBuffer mem (argptr_spec pointer).1⟩
  | write =>
      rcases mem_getD_some mem with ⟨l, got, mem⟩
      rcases Option.bind_eq_some_iff.mp got with ⟨f, _, got⟩
      rcases Option.bind_eq_some_iff.mp got with ⟨n, _, got⟩
      rcases Option.bind_eq_some_iff.mp got with ⟨p, pointer, got⟩
      cases got
      exact ⟨1, n, p, pointer, filewrite_inBuffer mem⟩
  | fstat =>
      rcases mem_getD_some mem with ⟨l, got, mem⟩
      rcases Option.bind_eq_some_iff.mp got with ⟨f, _, got⟩
      rcases Option.bind_eq_some_iff.mp got with ⟨p, pointer, got⟩
      cases got
      exact ⟨1, BitVec.ofNat 32 STATSIZE, p, pointer, filestat_inBuffer mem⟩
  | pipe =>
      rcases mem_getD_some mem with ⟨l, got, mem⟩
      rcases Option.bind_eq_some_iff.mp got with ⟨p, pointer, got⟩
      rcases Option.bind_eq_some_iff.mp got with ⟨files, _, got⟩
      rcases Option.bind_eq_some_iff.mp got with ⟨first, _, got⟩
      rcases Option.bind_eq_some_iff.mp got with ⟨second, _, got⟩
      cases got
      refine ⟨0, 2 * 4, p, pointer, ?_⟩
      rcases List.mem_append.mp mem with first | second
      · exact inBuffer_of_span_zero (by decide) first
      · exact inBuffer_of_span (i := 4) (by decide) second
  | getpinfo => exact absurd rfl notPinfo

theorem touched_getpinfo : touched s k .getpinfo =
    ((s.argptr 0 POINTERSIZE).map fun p => span p (PSTATSIZE * NPROC)).getD [] := by
  have entries : getpinfo = fun p => span p (PSTATSIZE * NPROC) := funext getpinfo_eq
  rw [touched, entries]
  cases s.argptr 0 POINTERSIZE with
  | none => rfl
  | some p => rfl

/-- A system call touches user memory below the size of the process only, exactly if its arguments
fit: `getpinfo` writes more than it has checked. -/
theorem touched_below_iff (s : Proc) (k : Kernel) (call : Call) (user : s.sz.toNat < KERNBASE) :
    (∀ a ∈ touched s k call, a < s.sz) ↔ Fits s call := by
  by_cases pinfo : call = .getpinfo
  · subst pinfo
    rw [touched_getpinfo, Fits]
    constructor
    · -- The last byte of the table.
      intro below _ p pointer
      rw [pointer, Option.map_some, Option.getD_some] at below
      have last := below (p + BitVec.ofNat 32 1023)
        (List.mem_map.mpr ⟨1023, List.mem_range.mpr (by decide), rfl⟩)
      have start := (argptr_spec pointer).2.1
      rw [BitVec.lt_def, BitVec.toNat_add, BitVec.toNat_ofNat] at last
      rw [BitVec.lt_def] at start
      simp only [KERNBASE, PSTATSIZE, NPROC] at user ⊢
      omega
    · intro fits a mem
      rcases mem_getD_some mem with ⟨l, got, mem⟩
      rcases Option.map_eq_some_iff.mp got with ⟨p, pointer, rfl⟩
      have enough := fits rfl p pointer
      rcases List.mem_map.mp mem with ⟨i, inside, rfl⟩
      have lt := List.mem_range.mp inside
      rw [BitVec.lt_def, BitVec.toNat_add, BitVec.toNat_ofNat]
      simp only [KERNBASE] at user
      omega
  · refine iff_of_true (fun a mem => ?_) fun is => absurd is pinfo
    rcases touched_inBuffer pinfo mem with ⟨i, size, p, pointer, inside⟩
    exact lt_sz_of_inBuffer user pointer inside

/-- Two pages of program and stack, and four bytes more: the table is asked for there. -/
def atEnd : Proc where
  sz := 0x3004
  esp := 0x2ff0
  mem := fun a => if a = 0x2ff5 then 0x30 else 0
  ofile := fun _ => none

def idleKernel : Kernel where
  pipe := (⟨fun _ => 0, 0, 0, true, true⟩, false)
  sleeps := []
  visit := fun _ => ⟨⟨⟨0, 0, 0, 0, 0, fun _ => 0⟩, 0⟩, 0, fun _ => true, []⟩
  pipealloc := none

/-- A `getpinfo` at the very end of the memory. -/
theorem touched_below_iff_atEnd :
    (∀ a ∈ touched atEnd idleKernel .getpinfo, a < atEnd.sz) ↔ Fits atEnd .getpinfo :=
  touched_below_iff atEnd idleKernel .getpinfo (by decide)

/-- Byte 4 of the table is already beyond `sz`. -/
theorem not_touched_below : ¬∀ (s : Proc) (k : Kernel) (call : Call), s.sz.toNat < KERNBASE →
    ∀ a ∈ touched s k call, a < s.sz := by
  intro below
  have outside := below atEnd idleKernel .getpinfo (by decide) 0x3004 (by decide +kernel)
  exact absurd outside (by decide)

end Xv6.Syscall
