import CowPaging.Kernel

/-!
# Open files

The file table of `file.c` and the descriptors of the processes. A `struct file *` is
an index of the table, a `struct pipe *` the number of its page and a
`struct inode *` the number of the inode. What happens to a pipe or an inode when its
last file is closed is left to the modules that model them.
-/

namespace CowPaging

open StateExcept SlotTable

def NFILE : Nat := 100
def NOFILE : Nat := 16

inductive FileType where
  | none | pipe | inode
deriving DecidableEq, Repr

/-- `struct file`. -/
structure FileEntry where
  type : FileType
  ref : Nat
  readable : Bool
  writable : Bool
  pipe : Nat
  ip : Nat

/-- `ftable`, and `ofile` of every process. -/
structure Files where
  ftable : Nat → FileEntry
  ofile : Nat → Nat → Option Nat

/-- No file is open. -/
def Files.none : Files where
  ftable := fun _ => ⟨.none, 0, false, false, 0, 0⟩
  ofile := fun _ _ => Option.none

abbrev FilesM := StateT Files (Except Halt)

def Files.setFile (t : Files) (i : Nat) (f : FileEntry → FileEntry) : Files :=
  { t with ftable := Function.update t.ftable i (f (t.ftable i)) }

def Files.setOfile (t : Files) (p fd : Nat) (x : Option Nat) : Files :=
  { t with ofile := Function.update t.ofile p (Function.update (t.ofile p) fd x) }

def filealloc : FilesM (Option Nat) := do
  let t ← get
  match firstSlot NFILE fun i => decide ((t.ftable i).ref = 0) with
  | none => pure none
  | some i => do
    set (t.setFile i fun f => { f with ref := 1 })
    pure (some i)

def filedup (i : Nat) : FilesM Unit := do
  let t ← get
  if (t.ftable i).ref < 1 then throw (.panic .filedup)
  else set (t.setFile i fun f => { f with ref := f.ref + 1 })

/-- `fileclose` up to the release of its lock: what the file was, if this was its last
    reference. -/
def filedrop (i : Nat) : FilesM (Option FileEntry) := do
  let t ← get
  let ff := t.ftable i
  if ff.ref < 1 then throw (.panic .fileclose)
  else if 1 < ff.ref then do
    set (t.setFile i fun f => { f with ref := f.ref - 1 })
    pure none
  else do
    set (t.setFile i fun f => { f with ref := 0, type := .none })
    pure (some ff)

/-! ### Descriptors of process `p` -/

def fdalloc (p f : Nat) : FilesM (Option Nat) := do
  let t ← get
  match firstSlot NOFILE fun fd => (t.ofile p fd).isNone with
  | none => pure none
  | some fd => do
    set (t.setOfile p fd (some f))
    pure (some fd)

def argfd (p fd : Nat) : FilesM (Option Nat) := do
  let t ← get
  pure (if fd < NOFILE then t.ofile p fd else none)

def sysDup (p fd : Nat) : FilesM Int := do
  match ← argfd p fd with
  | none => pure (-1)
  | some f =>
    match ← fdalloc p f with
    | none => pure (-1)
    | some fd' => do
      filedup f
      pure (fd' : Int)

/-- The loop of `fork` over the open files. -/
def forkFiles (p np : Nat) : FilesM Unit :=
  loopFrom (fun fd => do
    let t ← get
    match t.ofile p fd with
    | none => pure ()
    | some f => do
      filedup f
      modify fun t => t.setOfile np fd (some f)) 0 NOFILE

end CowPaging
