import CowPaging.Files

/-!
# Inodes, directories and path names

`fs.c` and `sysfile.c` as far as names go: the inode table, the in-memory references of
the inode cache, directories, path lookup and the system calls that make and remove
names. A call runs from `begin_op` to `end_op` without another one in between, so the
sleep locks are left out. The cached copy of an inode is written through to the disk
by `iupdate` after every change, so there is one table; `valid` says whether the cached
copy has been read. Contents of files that are no directories, device numbers, and the
blocks (with the panic of `balloc` on a full disk) are left out.
-/

namespace CowPaging

open Bytes StateExcept SlotTable
open Function (update)

def ROOTINO : Nat := 1
/-- `sb.ninodes`, as `mkfs` writes it. -/
def NINODES : Nat := 200
/-- Entries of the inode cache. -/
def NINODE : Nat := 50
def DIRSIZ : Nat := 14
/-- `MAXFILE * BSIZE / sizeof(struct dirent)`: what `writei` lets a directory grow to. -/
def MAXDIRENTS : Nat := (12 + 128) * 512 / 16

def O_RDONLY : Word := 0x000
def O_WRONLY : Word := 0x001
def O_RDWR : Word := 0x002
def O_CREATE : Word := 0x200

/-- The bytes of a string before its zero. -/
abbrev Str := List Byte

def slash : Byte := 47
def dot : Str := [46]
def dotdot : Str := [46, 46]

/-- `struct dirent`; `inum` 0 is an empty entry. -/
structure Dirent where
  name : Str
  inum : Nat
deriving DecidableEq

/-- `T_DIR`, `T_FILE`, `T_DEV`, and 0 for an inode that is not allocated. -/
inductive InodeType where
  | free | dir | file | dev
deriving DecidableEq, Repr

/-- `struct dinode`, with the contents of a directory. `nlink` is a `short`. -/
structure Inode where
  type : InodeType
  nlink : BitVec 16
  entries : List Dirent

/-- The inodes by number, the references and the `valid` flag of the cache entry for a number,
    the current directory of every process that runs, and the open files. -/
structure Fs extends Files where
  inode : Nat → Inode
  ref : Nat → Nat
  valid : Nat → Bool
  cwd : Nat → Option Nat

abbrev FsM := StateT Fs (Except Halt)

def withFiles {α : Type} : FilesM α → FsM α := zoom Fs.toFiles fun t s => { s with toFiles := t }

def Fs.setInode (s : Fs) (i : Nat) (f : Inode → Inode) : Fs :=
  { s with inode := update s.inode i (f (s.inode i)) }

def Fs.setRef (s : Fs) (i n : Nat) : Fs := { s with ref := update s.ref i n }

def Fs.setValid (s : Fs) (i : Nat) (b : Bool) : Fs :=
  { s with valid := update s.valid i b }

/-! ### Inodes -/

def iget (inum : Nat) : FsM Nat := do
  let s ← get
  if 0 < s.ref inum then do
    set (s.setRef inum (s.ref inum + 1))
    pure inum
  else if NINODE ≤ ((List.range NINODES).filter fun i => decide (0 < s.ref i)).length then
    throw (.panic .igetNoInodes)
  else do
    set ((s.setRef inum 1).setValid inum false)
    pure inum

def idup (inum : Nat) : FsM Nat := do
  modify fun s => s.setRef inum (s.ref inum + 1)
  pure inum

def ilock (inum : Nat) : FsM Unit := do
  let s ← get
  if s.ref inum < 1 then throw (.panic .ilock)
  else if s.valid inum then pure ()
  else if (s.inode inum).type = .free then throw (.panic .ilockNoType)
  else set (s.setValid inum true)

def iput (inum : Nat) : FsM Unit := do
  let s ← get
  if s.valid inum ∧ (s.inode inum).nlink = 0 ∧ s.ref inum = 1 then
    -- `itrunc`, and the type is cleared
    set ((s.setInode inum fun ip => { ip with type := .free, entries := [] }).setValid inum false)
  else pure ()
  modify fun s => s.setRef inum (s.ref inum - 1)

def ialloc (type : InodeType) : FsM Nat := do
  let s ← get
  match firstSlot NINODES fun i => decide (i ≠ 0 ∧ (s.inode i).type = .free) with
  | none => throw (.panic .iallocNoInodes)
  | some inum => do
    set (s.setInode inum fun _ => { type := type, nlink := 0, entries := [] })
    iget inum

/-! ### Directories -/

/-- The loop of `dirlookup`: the inode number in the first entry with this name, and the place
    of the entry. -/
def findDirent (name : Str) : List Dirent → Option (Nat × Nat)
  | [] => none
  | de :: rest =>
    if de.inum ≠ 0 ∧ de.name = name then some (de.inum, 0)
    else (findDirent name rest).map fun r => (r.1, r.2 + 1)

/-- `dirlookup`: the inode, and the place of the entry. -/
def dirlookup (dp : Nat) (name : Str) : FsM (Option (Nat × Nat)) := do
  let s ← get
  if (s.inode dp).type ≠ .dir then throw (.panic .dirlookupNotDir)
  else
    match findDirent name (s.inode dp).entries with
    | none => pure none
    | some (inum, off) => do
      let ip ← iget inum
      pure (some (ip, off))

/-- The first empty entry, or the end, becomes `de`. -/
def insertDirent (de : Dirent) : List Dirent → List Dirent
  | [] => [de]
  | x :: xs => if x.inum = 0 then de :: xs else x :: insertDirent de xs

/-- `dirlink`: whether the name was new. -/
def dirlink (dp : Nat) (name : Str) (inum : Nat) : FsM Bool := do
  match ← dirlookup dp name with
  | some (ip, _) => do
    iput ip
    pure false
  | none => do
    let s ← get
    let entries := insertDirent ⟨name, inum⟩ (s.inode dp).entries
    if MAXDIRENTS < entries.length then throw (.panic .dirlink)
    else do
      set (s.setInode dp fun ip => { ip with entries := entries })
      pure true

/-- `isdirempty`. -/
def isdirempty (entries : List Dirent) : Bool := (entries.drop 2).all fun de => de.inum = 0

/-! ### Paths -/

/-- `skipelem`: the first element, cut to `DIRSIZ` bytes, and the path after it. -/
def skipelem (path : Str) : Option (Str × Str) :=
  match path.dropWhile (· = slash) with
  | [] => none
  | c :: rest =>
    some (((c :: rest).takeWhile (· ≠ slash)).take DIRSIZ,
      ((c :: rest).dropWhile (· ≠ slash)).dropWhile (· = slash))

/-- The elements that repeated calls of `skipelem` find in a path of at most `n` bytes. -/
def pathElems : Nat → Str → List Str
  | 0, _ => []
  | n + 1, path =>
    match skipelem path with
    | none => []
    | some (name, rest) => name :: pathElems n rest

/-- The loop of `namex` over the elements of the path. With `parent` the walk stops one
    level early and returns the last element as well. -/
def namexFrom (parent : Bool) : Nat → List Str → FsM (Option (Nat × Str))
  | ip, [] =>
    if parent then do
      iput ip
      pure none
    else pure (some (ip, []))
  | ip, name :: rest => do
    ilock ip
    let s ← get
    if (s.inode ip).type ≠ .dir then do
      iput ip
      pure none
    else if parent = true ∧ rest = [] then pure (some (ip, name))
    else
      match ← dirlookup ip name with
      | none => do
        iput ip
        pure none
      | some (next, _) => do
        iput ip
        namexFrom parent next rest

/-- `namex` for process `p`. -/
def namex (p : Nat) (path : Str) (parent : Bool) : FsM (Option (Nat × Str)) := do
  let s ← get
  let ip ←
    if path.head? = some slash then iget ROOTINO
    else
      match s.cwd p with
      | some d => idup d
      | none => throw .nullPointer
  namexFrom parent ip (pathElems path.length path)

def namei (p : Nat) (path : Str) : FsM (Option Nat) := do
  let r ← namex p path false
  pure (r.map Prod.fst)

def nameiparent (p : Nat) (path : Str) : FsM (Option (Nat × Str)) := namex p path true

/-! ### System calls of process `p` -/

/-- The path `bad` of `sys_link`. -/
def linkBad (ip : Nat) : FsM Int := do
  ilock ip
  modify fun s => s.setInode ip fun i => { i with nlink := i.nlink - 1 }
  iput ip
  pure (-1)

/-- The part of `sys_link` that makes the new name, after the count went up. -/
def linkNew (p ip : Nat) (new : Str) : FsM Int := do
  match ← nameiparent p new with
  | none => linkBad ip
  | some (dp, name) => do
    ilock dp
    if ← dirlink dp name ip then do
      iput dp
      iput ip
      pure 0
    else do
      iput dp
      linkBad ip

def sysLink (p : Nat) (old new : Str) : FsM Int := do
  match ← namei p old with
  | none => pure (-1)
  | some ip => do
    ilock ip
    let s ← get
    if (s.inode ip).type = .dir then do
      iput ip
      pure (-1)
    else do
      set (s.setInode ip fun i => { i with nlink := i.nlink + 1 })
      linkNew p ip new

/-- The part of `sys_unlink` for an entry of `dp` that was found. -/
def unlinkEntry (dp ip off : Nat) : FsM Int := do
  ilock ip
  let s ← get
  if (s.inode ip).nlink.toInt < 1 then throw (.panic .unlinkNlink)
  else if (s.inode ip).type = .dir ∧ isdirempty (s.inode ip).entries = false then do
    iput ip
    iput dp
    pure (-1)
  else do
    modify fun s => s.setInode dp fun d => { d with entries := d.entries.set off ⟨[], 0⟩ }
    if (s.inode ip).type = .dir then
      modify fun s => s.setInode dp fun d => { d with nlink := d.nlink - 1 }
    else pure ()
    iput dp
    modify fun s => s.setInode ip fun i => { i with nlink := i.nlink - 1 }
    iput ip
    pure 0

def sysUnlink (p : Nat) (path : Str) : FsM Int := do
  match ← nameiparent p path with
  | none => pure (-1)
  | some (dp, name) => do
    ilock dp
    if name = dot ∨ name = dotdot then do
      iput dp
      pure (-1)
    else
      match ← dirlookup dp name with
      | none => do
        iput dp
        pure (-1)
      | some (ip, off) => unlinkEntry dp ip off

/-- The part of `create` for a name that is not in `dp` yet. -/
def createNew (dp : Nat) (name : Str) (type : InodeType) : FsM (Option Nat) := do
  let ip ← ialloc type
  ilock ip
  modify fun s => s.setInode ip fun i => { i with nlink := 1 }
  if type = .dir then do
    -- for ".."; there is no count for "."
    modify fun s => s.setInode dp fun d => { d with nlink := d.nlink + 1 }
    if !(← dirlink ip dot ip) then throw (.panic .createDots)
    else if !(← dirlink ip dotdot dp) then throw (.panic .createDots)
    else pure ()
  else pure ()
  if !(← dirlink dp name ip) then throw (.panic .createDirlink)
  else do
    iput dp
    pure (some ip)

/-- `create`: the inode, referenced. -/
def create (p : Nat) (path : Str) (type : InodeType) : FsM (Option Nat) := do
  match ← nameiparent p path with
  | none => pure none
  | some (dp, name) => do
    ilock dp
    match ← dirlookup dp name with
    | some (ip, _) => do
      iput dp
      ilock ip
      let s ← get
      if type = .file ∧ (s.inode ip).type = .file then pure (some ip)
      else do
        iput ip
        pure none
    | none => createNew dp name type

def Fs.fileclose (f : Nat) : FsM Unit := do
  match ← withFiles (filedrop f) with
  | none => pure ()
  | some ff =>
    match ff.type with
    | .inode => iput ff.ip
    -- a pipe has no inode
    | .pipe => pure ()
    | .none => pure ()

/-- The end of `sys_open`, with the inode `ip` referenced. -/
def openInode (p ip : Nat) (omode : Word) : FsM Int := do
  match ← withFiles filealloc with
  | none => do
    iput ip
    pure (-1)
  | some f =>
    match ← withFiles (fdalloc p f) with
    | none => do
      Fs.fileclose f
      iput ip
      pure (-1)
    | some fd => do
      withFiles (modify fun t => t.setFile f fun e =>
        { e with
          type := .inode, ip := ip
          readable := decide (omode &&& O_WRONLY = 0)
          writable := decide (omode &&& O_WRONLY ≠ 0 ∨ omode &&& O_RDWR ≠ 0) })
      pure (fd : Int)

def Fs.sysOpen (p : Nat) (path : Str) (omode : Word) : FsM Int := do
  if omode &&& O_CREATE ≠ 0 then
    match ← create p path .file with
    | none => pure (-1)
    | some ip => openInode p ip omode
  else
    match ← namei p path with
    | none => pure (-1)
    | some ip => do
      ilock ip
      let s ← get
      if (s.inode ip).type = .dir ∧ omode ≠ O_RDONLY then do
        iput ip
        pure (-1)
      else openInode p ip omode

/-- `sys_mkdir` and `sys_mknod`. -/
def makeNode (p : Nat) (path : Str) (type : InodeType) : FsM Int := do
  match ← create p path type with
  | none => pure (-1)
  | some ip => do
    iput ip
    pure 0

def sysMkdir (p : Nat) (path : Str) : FsM Int := makeNode p path .dir
def sysMknod (p : Nat) (path : Str) : FsM Int := makeNode p path .dev

def sysChdir (p : Nat) (path : Str) : FsM Int := do
  match ← namei p path with
  | none => pure (-1)
  | some ip => do
    ilock ip
    let s ← get
    if (s.inode ip).type ≠ .dir then do
      iput ip
      pure (-1)
    else
      match s.cwd p with
      | none => throw .nullPointer
      | some d => do
        iput d
        modify fun s => { s with cwd := update s.cwd p (some ip) }
        pure 0

def Fs.sysClose (p fd : Nat) : FsM Int := do
  match ← withFiles (argfd p fd) with
  | none => pure (-1)
  | some f => do
    withFiles (modify fun t => t.setOfile p fd none)
    Fs.fileclose f
    pure 0

/-- `fork` into the process slot `np`: the open files and the current directory. -/
def Fs.fork (p np : Nat) : FsM Int := do
  withFiles (forkFiles p np)
  let s ← get
  match s.cwd p with
  | none => throw .nullPointer
  | some d => do
    let d ← idup d
    modify fun s => { s with cwd := update s.cwd np (some d) }
    pure 0

def Fs.exit (p : Nat) : FsM Int := do
  loopFrom (fun fd => do
    let s ← get
    match s.ofile p fd with
    | none => pure ()
    | some f => do
      Fs.fileclose f
      withFiles (modify fun t => t.setOfile p fd none)) 0 NOFILE
  let s ← get
  match s.cwd p with
  | none => throw .nullPointer
  | some d => do
    iput d
    modify fun s => { s with cwd := update s.cwd p none }
    pure 0

inductive FsOp where
  | mkdir (path : Str)
  | mknod (path : Str)
  | open (path : Str) (omode : Word)
  | link (old new : Str)
  | unlink (path : Str)
  | chdir (path : Str)
  | dup (fd : Nat)
  | close (fd : Nat)
  | fork (np : Nat)
  | exit

def fsCall (p : Nat) : FsOp → FsM Int
  | .mkdir path => sysMkdir p path
  | .mknod path => sysMknod p path
  | .open path omode => Fs.sysOpen p path omode
  | .link old new => sysLink p old new
  | .unlink path => sysUnlink p path
  | .chdir path => sysChdir p path
  | .dup fd => withFiles (sysDup p fd)
  | .close fd => Fs.sysClose p fd
  | .fork np => Fs.fork p np
  | .exit => Fs.exit p

/-! ### The image that `mkfs` makes -/

/-- The root directory and its files, numbered from 2 on. The size of the root is rounded up
    to a block, which adds empty entries. -/
def mkfs (names : List Str) : Nat → Inode := fun i =>
  if i = ROOTINO then
    let used : List Dirent := ⟨dot, ROOTINO⟩ :: ⟨dotdot, ROOTINO⟩ ::
      names.mapIdx fun k name => ⟨name, k + 2⟩
    { type := .dir, nlink := 1,
      entries := used ++ List.replicate ((used.length / 32 + 1) * 32 - used.length) ⟨[], 0⟩ }
  else if 2 ≤ i ∧ i < names.length + 2 then { type := .file, nlink := 1, entries := [] }
  else { type := .free, nlink := 0, entries := [] }

/-- The first process runs in the root directory. -/
def Fs.start (names : List Str) : Fs where
  toFiles := Files.none
  inode := mkfs names
  ref := fun i => if i = ROOTINO then 1 else 0
  valid := fun _ => false
  cwd := fun p => if p = 0 then some ROOTINO else none

end CowPaging
