import CowPaging.ArgStack
import CowPaging.FsRuns
import CowPaging.PageDemand
import CowPaging.Exhaustion

/-!
# The system call `exec`

`exec` from the path to the trap frame: the path is looked up and the inode held while the
program is loaded, inside one operation of the log, and both are given back on every way out.
The part that builds the address space is `execNew`; the rest only adds the name, the inode
and the count of the log's operations around it.

What `begin_op` waits for and what a commit writes is left out here, and so are the contents
that `iput` frees with the last reference to an inode without a name: a path never leads to
one.
-/

namespace CowPaging

open Bytes StateExcept SlotTable

/-- The registers of the trap frame that `exec` sets. -/
structure Trapframe where
  eip : Nat
  esp : Nat
deriving DecidableEq

/-- What `exec` works on: memory and processes, names, the contents of the files by inode
    number, the operations in the log, and the caller's trap frame and name. -/
structure ExecState where
  kernel : Kernel
  fs : Fs
  content : Nat → File
  outstanding : Nat
  tf : Trapframe
  name : Str

abbrev ExecM := StateT ExecState (Except Halt)

def inKernel {α : Type} : K α → ExecM α := zoom ExecState.kernel fun t s => { s with kernel := t }
def inFs {α : Type} : FsM α → ExecM α := zoom ExecState.fs fun t s => { s with fs := t }

def beginOp : ExecM Unit := modify fun s => { s with outstanding := s.outstanding + 1 }
def endOp : ExecM Unit := modify fun s => { s with outstanding := s.outstanding - 1 }

/-- The loop over the path that finds the byte after the last slash, from `s` on. -/
def lastElem : Str → Str → Str
  | last, [] => last
  | last, c :: s => lastElem (if c = slash then s else last) s

/-- `safestrcpy` into `n` bytes, up to the zero. -/
def safestrcpy (t : Str) (n : Nat) : Str := t.take (n - 1)

variable [KernelImage]

/-- The path `bad`. -/
def execBad (pgdir ip : Option Nat) : ExecM Int := do
  match pgdir with
  | some pgdir => inKernel (freevm pgdir)
  | none => pure ()
  match ip with
  | some ip => do
    inFs (iput ip)
    endOp
  | none => pure ()
  pure (-1)

/-- `exec(path, argv)`. -/
def execCall (evict : K Unit) (path : Str) (argv : List (List Byte)) : ExecM Int := do
  beginOp
  let s ← get
  match ← inFs (namei s.kernel.cur path) with
  | none => do
    endOp
    pure (-1)
  | some ip => do
    inFs (ilock ip)
    let s ← get
    let file := s.content ip
    if readi file 0 sizeofElfhdr ≠ sizeofElfhdr then execBad none (some ip)
    else if file.word 0 ≠ ELF_MAGIC then execBad none (some ip)
    else
      match ← inKernel (setupkvm evict) with
      | none => execBad none (some ip)
      | some pgdir => do
        match ← inKernel (execLoad evict pgdir file file.phnum (file.word 28) 0) with
        | none => execBad (some pgdir) (some ip)
        | some sz => do
          inFs (iput ip)
          endOp
          match ← inKernel (execStack evict pgdir sz argv) with
          | none => execBad (some pgdir) none
          | some (sz, sp) => do
            -- `curproc->name` has 16 bytes
            modify fun s => { s with name := safestrcpy (lastElem path path) 16 }
            let s ← get
            let oldpgdir := (s.kernel.proc s.kernel.cur).pgdir
            inKernel (modify fun s => s.setProc s.cur fun pr =>
              { pr with pgdir := pgdir, sz := sz })
            modify fun s => { s with tf := ⟨file.word 24, sp⟩ }
            inKernel (freevm oldpgdir)
            pure 0

/-! ### The lookup around the new address space -/

variable {evict : K Unit} {path : Str} {argv : List (List Byte)} {s s' : ExecState} {fs fs' : Fs} {ip : Nat}

omit [KernelImage] in
theorem inKernel_bind {α β : Type} (m : K α) (f : α → ExecM β) (s : ExecState) :
    (inKernel m >>= f) s = match m s.kernel with
      | .ok (a, k) => f a { s with kernel := k }
      | .error e => .error e := by
  simp only [bind, StateT.bind, inKernel, zoom, Except.bind]
  cases m s.kernel <;> rfl

omit [KernelImage] in
theorem inKernel_modify {β : Type} (g : Kernel → Kernel) (f : PUnit → ExecM β) (s : ExecState) :
    (inKernel (modify g) >>= f) s = f ⟨⟩ { s with kernel := g s.kernel } := rfl

omit [KernelImage] in
theorem kernel_bind {α β : Type} (m : K α) (f : α → K β) (k : Kernel) :
    (m >>= f) k = match m k with
      | .ok (a, k) => f a k
      | .error e => .error e := by
  simp only [bind, StateT.bind, Except.bind]
  cases m k <;> rfl

omit [KernelImage] in
theorem inFs_ok {α : Type} {m : FsM α} {a : α} (h : m s.fs = .ok (a, fs)) :
    inFs m s = .ok (a, { s with fs := fs }) := by
  rw [inFs, zoom, h]

omit [KernelImage] in
theorem inFs_eq_ok {α : Type} {m : FsM α} {a : α} (h : inFs m s = .ok (a, s')) :
    ∃ fs, m s.fs = .ok (a, fs) ∧ s' = { s with fs := fs } := by
  rw [inFs, zoom] at h
  cases hm : m s.fs with
  | error e =>
    rw [hm] at h
    cases h
  | ok x => grind

omit [KernelImage] in
theorem inFs_iput (s : ExecState) (ip : Nat) : inFs (iput ip) s = .ok ((), { s with fs := s.fs.put ip }) :=
  inFs_ok (iput_eq s.fs ip)

/-- The state after the new address space is given up or taken over. -/
def execDone (s : ExecState) (fs : Fs) (path : Str) (file : File) : Option Nat × Kernel → Int × ExecState
  | (none, k) => (-1, { s with kernel := k, fs := fs })
  | (some sp, k) => (0, { s with
      kernel := k, fs := fs, tf := ⟨file.word 24, sp⟩, name := safestrcpy (lastElem path path) 16 })

theorem execCall_missing (hname : namei s.kernel.cur path s.fs = .ok (none, fs)) :
    execCall evict path argv s = .ok (-1, { s with fs := fs }) := by
  have hlook : inFs (namei s.kernel.cur path) { s with outstanding := s.outstanding + 1 } =
      .ok (none, { s with fs := fs, outstanding := s.outstanding + 1 }) := inFs_ok hname
  rw [execCall, beginOp, modify_bind, get_bind]
  dsimp only
  rw [bind_of_ok hlook]
  rfl

/-- The path `bad` with the inode held, after one operation has begun. -/
theorem execBad_held (d : Option Nat) (k : Kernel) :
    execBad d (some ip) { s with kernel := k, fs := fs, outstanding := s.outstanding + 1 } =
      match d with
      | none => .ok (-1, { s with kernel := k, fs := fs.put ip })
      | some d => (freevm d k).map fun x => (-1, { s with kernel := x.2, fs := fs.put ip }) := by
  have hput : ∀ k, inFs (iput ip) { s with kernel := k, fs := fs, outstanding := s.outstanding + 1 } =
      .ok ((), { s with kernel := k, fs := fs.put ip, outstanding := s.outstanding + 1 }) :=
    fun k => inFs_iput _ ip
  unfold execBad
  cases d with
  | none =>
    dsimp only
    rw [bind_of_ok (hput k)]
    rfl
  | some d =>
    dsimp only
    rw [inKernel_bind]
    dsimp only
    cases freevm d k with
    | error e => rfl
    | ok x =>
      dsimp only
      rw [bind_of_ok (hput x.2)]
      rfl

/-- The inode is given back on every way out, and the rest is `execNew`. -/
theorem execCall_found (hname : namei s.kernel.cur path s.fs = .ok (some ip, fs))
    (hlock : ilock ip fs = .ok ((), fs')) :
    execCall evict path argv s =
      (execNew evict (s.content ip) argv s.kernel).map
        (execDone s (fs'.put ip) path (s.content ip)) := by
  have hlook : inFs (namei s.kernel.cur path) { s with outstanding := s.outstanding + 1 } =
      .ok (some ip, { s with fs := fs, outstanding := s.outstanding + 1 }) := inFs_ok hname
  have hheld : inFs (ilock ip) { s with fs := fs, outstanding := s.outstanding + 1 } =
      .ok ((), { s with fs := fs', outstanding := s.outstanding + 1 }) := inFs_ok hlock
  have hput : ∀ k, inFs (iput ip) { s with kernel := k, fs := fs', outstanding := s.outstanding + 1 } =
      .ok ((), { s with kernel := k, fs := fs'.put ip, outstanding := s.outstanding + 1 }) :=
    fun k => inFs_iput _ ip
  rw [execCall, beginOp, modify_bind, get_bind]
  dsimp only
  rw [bind_of_ok hlook]
  dsimp only
  rw [bind_of_ok hheld, get_bind, execNew]
  dsimp only
  by_cases hread : readi (s.content ip) 0 sizeofElfhdr ≠ sizeofElfhdr
  · rw [if_pos hread, if_pos hread]
    exact execBad_held none s.kernel
  rw [if_neg hread, if_neg hread]
  by_cases hmagic : (s.content ip).word 0 ≠ ELF_MAGIC
  · rw [if_pos hmagic, if_pos hmagic]
    exact execBad_held none s.kernel
  rw [if_neg hmagic, if_neg hmagic, inKernel_bind]
  rw [kernel_bind]
  dsimp only
  cases setupkvm evict s.kernel with
  | error e => rfl
  | ok x =>
    obtain ⟨_ | d, k⟩ := x
    · exact execBad_held none k
    dsimp only
    rw [inKernel_bind, kernel_bind]
    dsimp only
    cases execLoad evict d (s.content ip) (s.content ip).phnum ((s.content ip).word 28) 0 k with
    | error e => rfl
    | ok x =>
      obtain ⟨_ | sz, k⟩ := x
      · dsimp only
        rw [kernel_bind]
        refine (execBad_held (some d) k).trans ?_
        dsimp only
        cases freevm d k <;> rfl
      dsimp only
      rw [bind_of_ok (hput k), endOp, modify_bind, inKernel_bind, kernel_bind]
      dsimp only
      cases execStack evict d sz argv k with
      | error e => rfl
      | ok x =>
        obtain ⟨_ | ⟨sz, sp⟩, k⟩ := x
        · dsimp only
          rw [kernel_bind]
          unfold execBad
          dsimp only
          rw [inKernel_bind]
          dsimp only
          cases freevm d k <;> rfl
        · dsimp only
          rw [modify_bind, get_bind, get_bind, inKernel_modify, modify_bind, modify_bind, inKernel_bind,
            kernel_bind]
          dsimp only
          generalize freevm _ _ = r
          cases r <;> rfl

omit [KernelImage] in
theorem namei_origin {p : Nat} {found : Option Nat} {t t' : Fs} (h : namei p path t = .ok (found, t')) :
    ∃ d, t.origin p path = some d := by
  rw [Fs.origin]
  split
  · exact ⟨_, rfl⟩
  · next hrel =>
    cases hcwd : t.cwd p with
    | some d => exact ⟨d, rfl⟩
    | none =>
      have herror : wp (namei p path) t (fun _ _ => False) fun _ => True := by
        rw [namei, wp_bind, namex, wp_bind, wp_get, if_neg hrel, hcwd]
        trivial
      exact (wp_ok herror h).elim

theorem execCall_cases {r : Int} (h : execCall evict path argv s = .ok (r, s')) :
    (∃ fs, namei s.kernel.cur path s.fs = .ok (none, fs) ∧ r = -1 ∧ s' = { s with fs := fs }) ∨
    ∃ ip fs fs' x, namei s.kernel.cur path s.fs = .ok (some ip, fs) ∧
      ilock ip fs = .ok ((), fs') ∧ execNew evict (s.content ip) argv s.kernel = .ok x ∧
      (r, s') = execDone s (fs'.put ip) path (s.content ip) x := by
  have hsteps := h
  rw [execCall, beginOp, modify_bind, get_bind] at hsteps
  obtain ⟨found, s1, hlook, hsteps⟩ := bind_eq_ok hsteps
  obtain ⟨fs, (hname : namei s.kernel.cur path s.fs = .ok (found, fs)), rfl⟩ := inFs_eq_ok hlook
  cases found with
  | none =>
    rw [execCall_missing hname] at h
    cases h
    exact .inl ⟨fs, hname, rfl, rfl⟩
  | some ip =>
    obtain ⟨_, s2, hheld, -⟩ := bind_eq_ok hsteps
    obtain ⟨fs', (hlock : ilock ip fs = .ok ((), fs')), -⟩ := inFs_eq_ok hheld
    rw [execCall_found hname hlock] at h
    cases hnew : execNew evict (s.content ip) argv s.kernel with
    | error e =>
      rw [hnew] at h
      cases h
    | ok x =>
      rw [hnew] at h
      exact .inr ⟨ip, fs, fs', x, hname, hlock, hnew, (Except.ok.inj h).symm⟩

theorem FsInv.execCall_eq {strict : Bool} (hfs : FsInv strict [] s.fs)
    (hname : CowPaging.namei s.kernel.cur path s.fs = .ok (some ip, fs)) (hfile : (s.fs.inode ip).type ≠ .free) :
    ∃ fs', (∀ i, fs'.ref i = s.fs.ref i) ∧ ∀ evict argv, execCall evict path argv s =
      (execNew evict (s.content ip) argv s.kernel).map (execDone s fs' path (s.content ip)) := by
  obtain ⟨d, hd⟩ := namei_origin hname
  obtain ⟨-, hsame, hrefs, -⟩ := wp_ok (hfs.namei hd) hname
  have hlock := hrefs.ilock (E := fun _ => False) List.mem_cons_self
    (.inl (by rw [hsame.inode]; exact hfile))
  obtain ⟨_, fs1, hlock, hsame1, hrefs1, -, -⟩ := exists_ok_of_wp hlock
  have hall := hsame.trans hsame1
  obtain ⟨hsame2, hrefs2⟩ := hrefs1.drop_used (hall.orphansUsed hfs.refs.orphansUsed)
  refine ⟨fs1.put ip, fun i => ?_, fun evict argv => execCall_found hname hlock⟩
  rw [hrefs2.refs, (hall.trans hsame2).users, hfs.refs.refs]

/-! ### What the new program finds -/

/-- The byte that a process with directory `d` finds at `va`. -/
def userByte (k : Kernel) (d va : Nat) : Byte :=
  match view k d (va / PGSIZE) with
  | some (page, _) => page (va % PGSIZE)
  | none => 0

/-- User code may use page `v`. -/
def userOpen (k : Kernel) (d v : Nat) : Bool :=
  match view k d v with
  | some (_, user) => user
  | none => false

/-- The running process is about to start the program `img`: below its guard page is the
    program, and the stack page holds the arguments. -/
structure Started (k : Kernel) (tf : Trapframe) (img : Memory) (argv : List (List Byte)) : Prop where
  size : (k.proc k.cur).sz = PGROUNDUP img.sz + 2 * PGSIZE
  guard : userOpen k (k.proc k.cur).pgdir (PGROUNDUP img.sz / PGSIZE) = false
  stack : userOpen k (k.proc k.cur).pgdir (PGROUNDUP img.sz / PGSIZE + 1) = true
  passed : Passed (userByte k (k.proc k.cur).pgdir) (PGROUNDUP img.sz + PGSIZE)
    (PGROUNDUP img.sz + 2 * PGSIZE) tf.esp argv
  image : ∀ va, va < PGROUNDUP img.sz → userByte k (k.proc k.cur).pgdir va = img.byte va

variable {k : Kernel} {d z v va : Nat} {img mem : Memory}

omit [KernelImage] in
theorem Backs.userByte_eq (h : Backs k d z mem) (hva : va < z) : userByte k d va = mem.byte va := by
  obtain ⟨page, page', user, heq, hview, hsame⟩ :=
    h.seen (va / PGSIZE) (Nat.lt_of_le_of_lt (Nat.div_mul_le_self va PGSIZE) hva)
  obtain ⟨hpage, -⟩ := Prod.mk.inj (Option.some.inj heq)
  rw [userByte, hview]
  dsimp only
  rw [hsame _ (Nat.mod_lt _ (by decide)), ← hpage]
  rfl

omit [KernelImage] in
theorem Backs.userOpen_eq (h : Backs k d z mem) (hv : v * PGSIZE < z) : userOpen k d v = mem.user v := by
  obtain ⟨page, page', user, heq, hview, -⟩ := h.seen v hv
  obtain ⟨-, huser⟩ := Prod.mk.inj (Option.some.inj heq)
  rw [userOpen, hview, huser]

omit [KernelImage] in
theorem Launches.started {file : File} {sp : Nat} {tf : Trapframe} (h : Launches file argv sp img mem)
    (hargv : ∀ arg ∈ argv, arg.length < 2 ^ 24) (hsp : tf.esp = sp)
    (hbacks : Backs k (k.proc k.cur).pgdir (k.proc k.cur).sz mem) :
    ArgsFitPage argv ∧ Started k tf img argv := by
  obtain ⟨m, hadd, hstack⟩ := Option.bind_eq_some_iff.1 h.2
  obtain ⟨hm, hbelow⟩ := Memory.addStack_stacked hadd
  have hpass := hm.pass hargv
  by_cases hfits : ArgsFitPage argv
  · rw [if_pos hfits] at hpass
    obtain ⟨esp, mem', hsome, hmem, hpassed, hsame⟩ := hpass
    obtain ⟨rfl, rfl⟩ := Prod.mk.inj (Option.some.inj (hsome.symm.trans hstack))
    refine ⟨hfits, ?_⟩
    have hsize : (k.proc k.cur).sz = PGROUNDUP img.sz + 2 * PGSIZE := by
      rw [← hbacks.size, hmem.size]
      omega
    have hround : PGROUNDUP img.sz % PGSIZE = 0 := by
      simp only [PGROUNDUP, PGSIZE]
      omega
    have hguard := hmem.guard
    have hopen := hmem.stack
    rw [Nat.add_div_right _ (by decide)] at hguard hopen
    have hpage : PGROUNDUP img.sz / PGSIZE * PGSIZE = PGROUNDUP img.sz :=
      Nat.div_mul_cancel (Nat.dvd_of_mod_eq_zero hround)
    constructor
    · exact hsize
    · rw [hbacks.userOpen_eq (by rw [hpage, hsize]; simp [PGSIZE])]
      exact hguard
    · rw [hbacks.userOpen_eq (by rw [Nat.add_mul, hpage, hsize]; simp [PGSIZE])]
      exact hopen
    · rw [show PGROUNDUP img.sz + 2 * PGSIZE = PGROUNDUP img.sz + PGSIZE + PGSIZE by omega, hsp]
      apply hpassed.congr
      intro x _ hx
      exact hbacks.userByte_eq (by omega)
    · intro va hva
      rw [hbacks.userByte_eq (by omega), hsame va (Or.inl (by omega)), hbelow va hva]
  · rw [if_neg hfits] at hpass
    cases hpass.symm.trans hstack

section

variable {mode : Mode} {keep : Bool} {E : Halt → Prop} {own : Owners} {m : Flat} {r : Int}

omit [KernelImage] in
theorem setMemory_proc (m : Flat) (p : Nat) (mem : Memory) :
    (m.setMemory p mem).proc p = { m.proc p with memory := mem } := Function.update_self ..

omit [KernelImage] in
theorem runs_of_table {k k' : Kernel} {mem : Memory} (hrun : Runs k k.cur) (hcur : k'.cur = k.cur)
    (h : SameTable k m) (h' : SameTable k' (m.setMemory k.cur mem)) : Runs k' k'.cur := by
  have hstate : (k'.proc k.cur).state = (k.proc k.cur).state := by
    rw [← h'.state, setMemory_proc, h.state]
  rw [hcur]
  refine ⟨hrun.1, ?_⟩
  rw [hstate]
  exact hrun.2

/-- `exec` passes its arguments: it returns 0 only if strings and words fit into the stack
    page, and then the program finds them there. -/
theorem exec_passes_arguments (hev : EvictOk mode keep evict E) (h : Refines mode own s.kernel m)
    (hstrict : mode.strict = false) (hrun : Runs s.kernel s.kernel.cur)
    (hargv : ∀ arg ∈ argv, arg.length < 2 ^ 24)
    (hexec : execCall evict path argv s = .ok (r, s')) :
    r = -1 ∨ r = 0 ∧ ArgsFitPage argv ∧ ∃ ip fs img,
      namei s.kernel.cur path s.fs = .ok (some ip, fs) ∧
      Memory.load (s.content ip) (s.content ip).phnum ((s.content ip).word 28) Memory.empty = some img ∧
      Started s'.kernel s'.tf img argv := by
  rcases execCall_cases hexec with ⟨fs, -, rfl, -⟩ | ⟨ip, fs, fs', ⟨out, k⟩, hname, -, hnew, hdone⟩
  · exact Or.inl rfl
  have hfit : ArgsFit argv := fun arg harg => by
    have hlt := hargv arg harg
    omega
  have hwp := h.wp_execNew (s.content ip) hev hrun hfit (fun hm => by rw [hstrict] at hm; exact by cases hm)
  obtain ⟨own', hcur, ⟨sp, img, mem, rfl, -, -, hl, href⟩ | ⟨rfl, -⟩⟩ := wp_ok hwp hnew
  · obtain ⟨rfl, rfl⟩ := Prod.mk.inj hdone
    right
    have hbacks := href.memory k.cur _ _ (runs_of_table hrun hcur h.table href.table).live
    rw [show (m.setMemory s.kernel.cur mem).proc k.cur = _ by rw [hcur, setMemory_proc]] at hbacks
    obtain ⟨hfits, hstarted⟩ := hl.started hargv
      (show (Trapframe.mk ((s.content ip).word 24) sp).esp = sp from rfl) hbacks
    exact ⟨rfl, hfits, ip, fs, img, hname, hl.1, hstarted⟩
  · obtain ⟨rfl, -⟩ := Prod.mk.inj hdone
    exact Or.inl rfl

end

/-! ### A program without segments -/

/-- The header of a program and nothing else. It announces `n` segments. -/
def headerOnly (n : Byte) : File where
  size := sizeofElfhdr
  data o := if o = 0 then 0x7f else if o = 1 then 0x45 else if o = 2 then 0x4c else if o = 3 then 0x46
    else if o = 28 then 52 else if o = 44 then n else 0

/-- The first process is about to call `exec`; the file `/i` is the only one. -/
def firstExec (k : Kernel) (n : Byte) : ExecState where
  kernel := { k with cur := 0 }
  fs := Fs.start [[105]]
  content _ := headerOnly n
  outstanding := 0
  tf := ⟨0, 0⟩
  name := []

omit [KernelImage] in
theorem firstExec_found (k : Kernel) (n : Byte) :
    ∃ fs, namei (firstExec k n).kernel.cur [slash, 105] (firstExec k n).fs = .ok (some 2, fs) := by
  have hfound : (match namei 0 [slash, 105] (Fs.start [[105]]) with
      | .ok (r, _) => r
      | .error _ => none) = some 2 := by decide +kernel
  have hcur : (firstExec k n).kernel.cur = 0 := rfl
  have hfs : (firstExec k n).fs = Fs.start [[105]] := rfl
  rw [hcur, hfs]
  cases hrun : namei 0 [slash, 105] (Fs.start [[105]]) with
  | error e =>
    rw [hrun] at hfound
    cases hfound
  | ok x =>
    rw [hrun] at hfound
    exact ⟨x.2, by rw [← hfound]⟩

omit [KernelImage] in
theorem imageNames_i : ImageNames [[105]] := by
  refine ⟨by decide, fun name hname => ?_⟩
  rw [List.mem_singleton] at hname
  subst hname
  decide

/-- The kernel after boot, and what `exec` does in it with a file that has no segments. -/
theorem firstExec_returns {argv : List (List Byte)} {n : Byte} {r : Option Nat}
    (hmem : 14 + 1 + 23 ≤ NFRAMES - KernelImage.endPage) (hfit : ArgsFit argv)
    (hload : ∀ d, execLoad noEvict d (headerOnly n) (headerOnly n).phnum ((headerOnly n).word 28) 0 =
      pure r) :
    ∃ k own x fs', boot 1 [7] Kernel.zero = .ok ((), k) ∧
      Refines Mode.plenty own (firstExec k n).kernel (Flat.boot [7]) ∧
      Runs (firstExec k n).kernel 0 ∧ (k.proc 0).rss = 0 ∧
      execNew noEvict (headerOnly n) argv (firstExec k n).kernel = .ok x ∧
      ∀ evict, execCall evict [slash, 105] argv (firstExec k n) =
        .ok (execDone (firstExec k n) fs' [slash, 105] (headerOnly n) x) := by
  obtain ⟨k, own, hboot, h, hsup, hrun, hsz⟩ := boot_one_byte hmem
  obtain ⟨-, hrss, -⟩ := first_page_present hboot
  have hlen := h.supplied hrun hsz (by rw [hrss]; exact Nat.zero_le _) hsup
  have href : Refines Mode.plenty own (firstExec k n).kernel (Flat.boot [7]) := h.withCur hrun.1
  have hroom := href.execNew_room rfl hrun hfit hlen hload
  have hspec := href.wp_execNew (headerOnly n) evictOk_plenty hrun hfit fun hm => by cases hm
  obtain ⟨fs, hname⟩ := firstExec_found k n
  have hstart : FsInv true [] (firstExec k n).fs := start_inv imageNames_i
  obtain ⟨fs', -, hcall⟩ := hstart.execCall_eq hname
    (show ((Fs.start [[105]]).inode 2).type ≠ .free by decide)
  cases hnew : execNew noEvict (headerOnly n) argv (firstExec k n).kernel with
  | error e =>
    have hnot := wp_error hroom hnew
    have hstop : e = .noEvict := wp_error (E := (· = .noEvict)) hspec hnew
    exact (hnot hstop).elim
  | ok x =>
    refine ⟨k, own, x, fs', hboot, href, hrun, hrss, hnew, fun evict => ?_⟩
    rw [hcall]
    show (execNew evict (headerOnly n) argv (firstExec k n).kernel).map _ = _
    rw [((cautious_noEvict evict).execNew (headerOnly n) argv).ok hnew]
    rfl

omit [KernelImage] in
/-- The first process starts a program without segments, with the argument `a`. -/
theorem exec_passes_arguments_first : letI := KernelImage.sample
    ∃ k s', boot 1 [7] Kernel.zero = .ok ((), k) ∧
      execCall noEvict [slash, 105] [[97]] (firstExec k 0) = .ok (0, s') ∧
      ArgsFitPage [[97]] ∧ Started s'.kernel s'.tf Memory.empty [[97]] := by
  let _ := KernelImage.sample
  have hfit : ArgsFit [[97]] := by
    intro arg harg
    rw [List.mem_singleton.1 harg]
    decide
  obtain ⟨k, own, ⟨out, k'⟩, fs', hboot, h, hrun, -, hnew, hcall⟩ :=
    firstExec_returns (n := 0) (by decide) hfit fun d => rfl
  have hspec := h.wp_execNew (headerOnly 0) evictOk_plenty hrun hfit fun hm => by cases hm
  -- the reference machine has room for the argument
  have hsome : (Memory.empty.addStack.bind (Memory.stack [[97]])).isSome = true := by decide +kernel
  obtain ⟨x, hx⟩ := Option.isSome_iff_exists.1 hsome
  obtain ⟨own', -, ⟨sp, img, mem, rfl, -⟩ | ⟨-, -, hnone⟩⟩ := wp_ok hspec hnew
  · have hpassed := exec_passes_arguments evictOk_plenty h rfl hrun (fun arg harg => ?_) (hcall noEvict)
    · rcases hpassed with hfail | ⟨-, hargs, ip, fs, img, -, himg, hstarted⟩
      · simp at hfail
      · have hnil : Memory.load (headerOnly 0) (headerOnly 0).phnum ((headerOnly 0).word 28)
          Memory.empty = some Memory.empty := rfl
        obtain rfl : Memory.empty = img := Option.some.inj (hnil.symm.trans himg)
        exact ⟨k, _, hboot, hcall noEvict, hargs, hstarted⟩
    · rw [List.mem_singleton.1 harg]
      decide
  · exact (hnone (by decide) (by decide) x.1 Memory.empty x.2 ⟨rfl, hx⟩).elim

end CowPaging
