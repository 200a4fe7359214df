import Xv6.Names.Inodes

/-!
# System calls with files

The system calls of part2's `sysfile.c` that take or give up references to open files and
inodes, with the functions of `file.c` and `pipe.c` that they use, and the parts of `fork`,
`exec`, `exit` and `wait` that concern files. An argument that cannot be fetched is `none`.
What a call finds in memory is an argument of it: whether `kalloc` succeeds, and how far
`exec` gets with the program.
-/

namespace Xv6.Names

open Fs (T_DIR T_FILE T_DEV T_CHECKED)
open Sched (State)

/-! ## Open files -/

def filealloc : NameM (Option (Fin NFILE)) := do
  let w ← get
  match (List.finRange NFILE).find? fun f => (w.ftable f).ref = 0 with
  | some f =>
      modify fun w => w.setFile f { w.ftable f with ref := 1 }
      return some f
  | none => return none

def filedup (f : Fin NFILE) : NameM (Fin NFILE) := do
  if ((← get).ftable f).ref < 1 then throw .filedup
  modify fun w => w.setFile f { w.ftable f with ref := (w.ftable f).ref + 1 }
  return f

/-- `pipeclose` is left out: it concerns the pipe alone. -/
def fileclose (f : Fin NFILE) : NameM Unit := do
  let ff := (← get).ftable f
  if ff.ref < 1 then throw .fileclose
  if ff.ref - 1 > 0 then
    modify fun w => w.setFile f { w.ftable f with ref := ff.ref - 1 }
  else
    modify fun w => w.setFile f { w.ftable f with ref := 0, type := .none }
    if ff.type = .inode then iput ff.ip

def setOfile (p : Fin NPROC) (fd : Fin NOFILE) (f : Option (Fin NFILE)) : NameM Unit :=
  modify fun w =>
    w.setProc p { w.proc p with ofile := Function.update (w.proc p).ofile fd f }

def fdalloc (p : Fin NPROC) (f : Fin NFILE) : NameM (Option (Fin NOFILE)) := do
  let w ← get
  match (List.finRange NOFILE).find? fun fd => ((w.proc p).ofile fd).isNone with
  | some fd =>
      setOfile p fd (some f)
      return some fd
  | none => return none

/-- The end of `pipealloc` when it fails. -/
def closeBoth (f₀ f₁ : Option (Fin NFILE)) : NameM Unit := do
  if let some f := f₀ then fileclose f
  if let some f := f₁ then fileclose f

def pipealloc (memory : Bool) : NameM (Option (Fin NFILE × Fin NFILE)) := do
  match ← filealloc with
  | none =>
      closeBoth none none
      return none
  | some f₀ =>
      match ← filealloc with
      | none =>
          closeBoth (some f₀) none
          return none
      | some f₁ =>
          if memory then
            modify fun w => w.setFile f₀
              { w.ftable f₀ with type := .pipe, readable := true, writable := false }
            modify fun w => w.setFile f₁
              { w.ftable f₁ with type := .pipe, readable := false, writable := true }
            return some (f₀, f₁)
          else
            closeBoth (some f₀) (some f₁)
            return none

/-! ## System calls -/

/-- The file of descriptor `fd`. -/
def argfd (p : Fin NPROC) (fd : Option (Fin NOFILE)) : NameM (Option (Fin NOFILE × Fin NFILE)) := do
  let w ← get
  return fd.bind fun fd => ((w.proc p).ofile fd).map fun f => (fd, f)

def sysDup (p : Fin NPROC) (fd : Option (Fin NOFILE)) : NameM (Option ℕ) := do
  match ← argfd p fd with
  | none => return none
  | some (_, f) =>
      match ← fdalloc p f with
      | none => return none
      | some fd =>
          let _ ← filedup f
          return some fd.val

def sysClose (p : Fin NPROC) (fd : Option (Fin NOFILE)) : NameM (Option ℕ) := do
  match ← argfd p fd with
  | none => return none
  | some (fd, f) =>
      setOfile p fd none
      fileclose f
      return some 0

/-- `ip->nlink` changes by `d`, also on the disk. -/
def addLinks (i : Fin NINODE) (d : ℤ) : NameM Unit := do
  modifyInode i fun ip => { ip with nlink := ip.nlink + d }
  iupdate i

/-- The label `bad` of `sys_link`. -/
def unlinkAgain (ip : Fin NINODE) : NameM (Option ℕ) := do
  ilock ip
  addLinks ip (-1)
  iunlockput ip
  return none

def sysLink (p : Fin NPROC) (old new : Option Text) : NameM (Option ℕ) := do
  match old, new with
  | some old, some new =>
      match ← namei p old with
      | none => return none
      | some ip =>
          ilock ip
          if (← getInode ip).type = T_DIR then
            iunlockput ip
            return none
          addLinks ip 1
          iunlock ip
          match ← nameiparent p new with
          | none => unlinkAgain ip
          | some (dp, name) =>
              ilock dp
              if ← dirlink dp name (← getInode ip).inum then
                iunlockput dp
                iput ip
                return some 0
              else
                iunlockput dp
                unlinkAgain ip
  | _, _ => return none

def dot : Text := [0x2e]

def dotdot : Text := [0x2e, 0x2e]

/-- Is the directory empty except for "." and ".." ? -/
def isdirempty (entries : List Dirent) : Bool := (entries.drop 2).all fun de => de.inum = 0

def sysUnlink (p : Fin NPROC) (path : Option Text) : NameM (Option ℕ) := do
  match path with
  | none => return none
  | some path =>
      match ← nameiparent p path with
      | none => return none
      | some (dp, name) =>
          ilock dp
          -- Cannot unlink "." or "..".
          if name = dot ∨ name = dotdot then
            iunlockput dp
            return none
          match ← dirlookup dp name with
          | none =>
              iunlockput dp
              return none
          | some (off, ip) =>
              ilock ip
              if (← getInode ip).nlink < 1 then throw .unlink
              if (← getInode ip).type = T_DIR ∧ isdirempty (← readDir ip) = false then
                iunlockput ip
                iunlockput dp
                return none
              writeDir dp ((← readDir dp).set off ⟨0, []⟩)
              if (← getInode ip).type = T_DIR then addLinks dp (-1)
              iunlockput dp
              addLinks ip (-1)
              iunlockput ip
              return some 0

def create (p : Fin NPROC) (path : Text) (type major minor : Half) :
    NameM (Option (Fin NINODE)) := do
  match ← nameiparent p path with
  | none => return none
  | some (dp, name) =>
      ilock dp
      match ← dirlookup dp name with
      | some (_, ip) =>
          iunlockput dp
          ilock ip
          if type = T_FILE ∧ (← getInode ip).type = T_FILE then return some ip
          iunlockput ip
          return none
      | none =>
          let ip ← ialloc type
          ilock ip
          modifyInode ip fun ip => { ip with major := major, minor := minor, nlink := 1 }
          iupdate ip
          if type = T_DIR then -- Create . and .. entries.
            addLinks dp 1 -- for ".."
            -- No ip->nlink++ for ".": avoid cyclic ref count.
            if (← dirlink ip dot (← getInode ip).inum) = false then throw .createDots
            if (← dirlink ip dotdot (← getInode dp).inum) = false then throw .createDots
          if (← dirlink dp name (← getInode ip).inum) = false then throw .createDirlink
          iunlockput dp
          return some ip

def O_WRONLY : Word := 0x001
def O_RDWR : Word := 0x002
def O_CREATE : Word := 0x200
def O_CHECKED : Word := 0x400

/-- The inode that `sys_open` opens, locked. -/
def openInode (p : Fin NPROC) (path : Text) (omode : Word) : NameM (Option (Fin NINODE)) := do
  if omode &&& O_CREATE ≠ 0 then
    create p path (if omode &&& O_CHECKED ≠ 0 then T_CHECKED else T_FILE) 0 0
  else
    match ← namei p path with
    | none => return none
    | some ip =>
        ilock ip
        if (← getInode ip).type = T_DIR ∧ omode ≠ 0 then
          iunlockput ip
          return none
        return some ip

def sysOpen (p : Fin NPROC) (path : Option Text) (omode : Option Word) : NameM (Option ℕ) := do
  match path, omode with
  | some path, some omode =>
      match ← openInode p path omode with
      | none => return none
      | some ip =>
          match ← filealloc with
          | none =>
              iunlockput ip
              return none
          | some f =>
              match ← fdalloc p f with
              | none =>
                  fileclose f
                  iunlockput ip
                  return none
              | some fd =>
                  iunlock ip
                  modify fun w => w.setFile f { w.ftable f with
                    type := .inode
                    ip := ip
                    readable := omode &&& O_WRONLY = 0
                    writable := omode &&& O_WRONLY ≠ 0 ∨ omode &&& O_RDWR ≠ 0 }
                  return some fd.val
  | _, _ => return none

def sysMkdir (p : Fin NPROC) (path : Option Text) : NameM (Option ℕ) := do
  match path with
  | none => return none
  | some path =>
      match ← create p path T_DIR 0 0 with
      | none => return none
      | some ip =>
          iunlockput ip
          return some 0

def sysMknod (p : Fin NPROC) (path : Option Text) (major minor : Option Half) :
    NameM (Option ℕ) := do
  match path, major, minor with
  | some path, some major, some minor =>
      match ← create p path T_DEV major minor with
      | none => return none
      | some ip =>
          iunlockput ip
          return some 0
  | _, _, _ => return none

def setCwd (p : Fin NPROC) (cwd : Option (Fin NINODE)) : NameM Unit :=
  modify fun w => w.setProc p { w.proc p with cwd := cwd }

/-- `iput` of the current directory. -/
def putCwd (p : Fin NPROC) : NameM Unit := do
  match ((← get).proc p).cwd with
  | none => throw .null
  | some cwd => iput cwd

def sysChdir (p : Fin NPROC) (path : Option Text) : NameM (Option ℕ) := do
  match path with
  | none => return none
  | some path =>
      match ← namei p path with
      | none => return none
      | some ip =>
          ilock ip
          if (← getInode ip).type ≠ T_DIR then
            iunlockput ip
            return none
          iunlock ip
          putCwd p
          setCwd p (some ip)
          return some 0

/-- `fd` is where the descriptors are to be stored. -/
def sysPipe (p : Fin NPROC) (fd : Option Unit) (memory : Bool) : NameM (Option ℕ) := do
  match fd with
  | none => return none
  | some _ =>
      match ← pipealloc memory with
      | none => return none
      | some (rf, wf) =>
          match ← fdalloc p rf with
          | none =>
              fileclose rf
              fileclose wf
              return none
          | some fd₀ =>
              match ← fdalloc p wf with
              | none =>
                  setOfile p fd₀ none
                  fileclose rf
                  fileclose wf
                  return none
              | some _ => return some 0

/-- How far `exec` gets with an executable. -/
inductive Loading where
  /-- It is rejected while its inode is locked. -/
  | rejected
  | noMemory
  | loaded
  deriving DecidableEq

def exec (p : Fin NPROC) (path : Option Text) (loading : Loading) : NameM (Option ℕ) := do
  match path with
  | none => return none
  | some path =>
      match ← namei p path with
      | none => return none
      | some ip =>
          ilock ip
          iunlockput ip
          return if loading = .loaded then some 0 else none

/-! ## Processes -/

def setState (p : Fin NPROC) (state : State) : NameM Unit :=
  modify fun w => w.setProc p { w.proc p with state := state }

/-- The loop of `fork` over the descriptors. -/
def dupFiles (p np : Fin NPROC) : List (Fin NOFILE) → NameM Unit
  | [] => return
  | fd :: fds => do
      match ((← get).proc p).ofile fd with
      | none => dupFiles p np fds
      | some f =>
          let f ← filedup f
          setOfile np fd (some f)
          dupFiles p np fds

/-- The slot of the child is returned in place of its pid. -/
def fork (p : Fin NPROC) (memory : Bool) : NameM (Option ℕ) := do
  let w ← get
  match (List.finRange NPROC).find? fun np => (w.proc np).state = .unused with
  | none => return none
  | some np =>
      setState np .embryo
      if memory then
        dupFiles p np (List.finRange NOFILE)
        match ((← get).proc p).cwd with
        | none => throw .null
        | some cwd =>
            setCwd np (some (← idup cwd))
            setState np .runnable
            return some np.val
      else
        setState np .unused
        return none

/-- The loop of `exit` over the descriptors. -/
def closeFiles (p : Fin NPROC) : List (Fin NOFILE) → NameM Unit
  | [] => return
  | fd :: fds => do
      match ((← get).proc p).ofile fd with
      | none => closeFiles p fds
      | some f =>
          fileclose f
          setOfile p fd none
          closeFiles p fds

/-- The slot of the first process. -/
def initproc : Fin NPROC := 0

def exit (p : Fin NPROC) : NameM (Option ℕ) := do
  if p = initproc then throw .initExiting
  closeFiles p (List.finRange NOFILE)
  putCwd p
  setCwd p none
  setState p .zombie
  return none

/-- `wait`, which finds the zombie `child`. -/
def wait (child : Fin NPROC) : NameM (Option ℕ) := do
  if ((← get).proc child).state = .zombie then
    setState child .unused
    return some child.val
  return none

inductive Call where
  | open (path : Option Text) (omode : Option Word)
  | dup (fd : Option (Fin NOFILE))
  | pipe (fd : Option Unit) (memory : Bool)
  | close (fd : Option (Fin NOFILE))
  | fork (memory : Bool)
  | exit
  | wait (child : Fin NPROC)
  | exec (path : Option Text) (loading : Loading)
  | chdir (path : Option Text)
  | link (old new : Option Text)
  | unlink (path : Option Text)
  | mkdir (path : Option Text)
  | mknod (path : Option Text) (major minor : Option Half)

def Call.run (p : Fin NPROC) : Call → NameM (Option ℕ)
  | .open path omode => sysOpen p path omode
  | .dup fd => sysDup p fd
  | .pipe fd memory => sysPipe p fd memory
  | .close fd => sysClose p fd
  | .fork memory => Names.fork p memory
  | .exit => Names.exit p
  | .wait child => Names.wait child
  | .exec path loading => Names.exec p path loading
  | .chdir path => sysChdir p path
  | .link old new => sysLink p old new
  | .unlink path => sysUnlink p path
  | .mkdir path => sysMkdir p path
  | .mknod path major minor => sysMknod p path major minor

/-- A living process has made a call, which has completed. -/
def Step (w w' : World) : Prop :=
  ∃ (p : Fin NPROC) (call : Call) (r : Option ℕ),
    (w.proc p).state.alive ∧ call.run p w = .ok (r, w')

/-- After `userinit`: the current directory of the first process is the root. -/
def boot (ninodes : ℕ) (disk : ℕ → Dinode) : World where
  ninodes := ninodes
  disk := disk
  icache := fun i =>
    { type := 0
      major := 0
      minor := 0
      nlink := 0
      inum := if i = 0 then ROOTINO else 0
      ref := if i = 0 then 1 else 0
      locked := false
      valid := false }
  ftable := fun _ => ⟨.none, 0, false, false, 0⟩
  proc := fun p =>
    { state := if p = initproc then .runnable else .unused
      ofile := fun _ => none
      cwd := if p = initproc then some 0 else none }

end Xv6.Names
