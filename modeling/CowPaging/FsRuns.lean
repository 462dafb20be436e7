import CowPaging.FsCalls

/-!
# Link counts and names over whole runs

From the image that `mkfs` makes, any processes make any calls in any order. As long as
nobody makes a name from a directory that has been unlinked, link counts stay exact. As
long as no directory is unlinked that is somebody's current directory or open, every
entry of every directory names an inode that is allocated. Both conditions are needed:
the two runs at the end break them.
-/

namespace CowPaging

open Bytes StateExcept SlotTable Tally

variable {strict : Bool} {s s' : Fs} {names : List Str} {p i d : Nat} {path : Str} {op : FsOp}
  {ops : List (Nat × FsOp)}

/-! ### Runs -/

/-- What the process table guarantees: the caller runs, `fork` finds a free entry, and the
    first process does not exit. -/
def FsEnabled (s : Fs) (p : Nat) (op : FsOp) : Prop :=
  (s.cwd p).isSome = true ∧ match op with
    | .fork np => s.cwd np = none ∧ np < NPROC
    | .exit => p ≠ 0
    | _ => True

instance (s : Fs) (p : Nat) (op : FsOp) : Decidable (FsEnabled s p op) := by
  unfold FsEnabled
  cases op <;> infer_instance

inductive FsRun (ok : Fs → Nat → FsOp → Prop) : Fs → List (Nat × FsOp) → Fs → Prop where
  | nil (s : Fs) : FsRun ok s [] s
  | cons {s s₁ s₂ : Fs} {p : Nat} {op : FsOp} {r : Int} {ops : List (Nat × FsOp)} :
      FsEnabled s p op → ok s p op → fsCall p op s = .ok (r, s₁) → FsRun ok s₁ ops s₂ →
      FsRun ok s ((p, op) :: ops) s₂

/-- The state after the calls, if every one of them can be made and returns. -/
def Fs.after (s : Fs) : List (Nat × FsOp) → Option Fs
  | [] => some s
  | (p, op) :: ops =>
    if FsEnabled s p op then
      match fsCall p op s with
      | .ok (_, s₁) => s₁.after ops
      | .error _ => none
    else none

/-- Any calls. -/
def Anything (_ : Fs) (_ : Nat) (_ : FsOp) : Prop := True

theorem FsRun.of_after (h : s.after ops = some s') : FsRun Anything s ops s' := by
  induction ops generalizing s with
  | nil =>
    obtain rfl := Option.some.inj h
    exact .nil s
  | cons call ops ih =>
    obtain ⟨p, op⟩ := call
    rw [Fs.after] at h
    split at h
    · next hen =>
        split at h
        · next r s1 hcall => exact .cons hen trivial hcall (ih h)
        · cases h
    · cases h

/-- The lookup starts in a directory that has not been unlinked. -/
def Rooted (s : Fs) (p : Nat) (path : Str) : Prop :=
  ∀ d, s.origin p path = some d → (s.inode d).nlink ≠ 0

/-- The count of the file can go up. -/
def Linkable (s : Fs) (p : Nat) (path : Str) : Prop :=
  ∀ i, s.resolve p path = some i → (s.inode i).nlink.toNat + 1 < 2 ^ 15

/-- No name is made from a directory that has been unlinked, and no count overflows. -/
def Anchored (s : Fs) (p : Nat) : FsOp → Prop
  | .mkdir path => Rooted s p path
  | .mknod path => Rooted s p path
  | .open path omode => omode &&& O_CREATE ≠ 0 → Rooted s p path
  | .link old new => Rooted s p new ∧ Linkable s p old
  | _ => True

/-- No directory is unlinked while it is open or somebody's current directory, and no count
    overflows. -/
def Sparing (s : Fs) (p : Nat) : FsOp → Prop
  | .unlink path => ∀ a, s.resolve p path = some a → (s.inode a).type = .dir → s.users a = 0
  | .link old _ => Linkable s p old
  | _ => True

theorem origin_of_cwd (hp : s.cwd p = some d) (path : Str) : ∃ e, s.origin p path = some e := by
  grind [Fs.origin]

theorem FsInv.rooted (h : FsInv true [] s) (p : Nat) (path : Str) : Rooted s p path :=
  fun d hd => h.linked rfl d (h.origin_dir hd)

theorem Sparing.anchored (hs : Sparing s p op) (h : FsInv true [] s) : Anchored s p op := by
  cases op with
  | mkdir path => exact h.rooted p path
  | mknod path => exact h.rooted p path
  | «open» path omode => exact fun _ => h.rooted p path
  | link old new => exact ⟨h.rooted p new, hs⟩
  | unlink path => trivial
  | chdir path => trivial
  | dup fd => trivial
  | close fd => trivial
  | fork np => trivial
  | exit => trivial

theorem fsCall_spec (h : FsInv strict [] s) (hen : FsEnabled s p op) (hanch : Anchored s p op)
    (hspare : strict = true → Sparing s p op) :
    wp (fsCall p op) s (fun _ s' => FsInv strict [] s') (Stops strict) := by
  obtain ⟨hruns, hop⟩ := hen
  obtain ⟨c, hc⟩ := Option.isSome_iff_exists.1 hruns
  have horigin := origin_of_cwd hc
  cases op with
  | mkdir path =>
    obtain ⟨d, hd⟩ := horigin path
    exact h.makeNode hd (hanch d hd) (by simp)
  | mknod path =>
    obtain ⟨d, hd⟩ := horigin path
    exact h.makeNode hd (hanch d hd) (by simp)
  | «open» path omode =>
    obtain ⟨d, hd⟩ := horigin path
    exact h.sysOpen hd fun hcreate => hanch hcreate d hd
  | link old new =>
    obtain ⟨e, he⟩ := horigin old
    obtain ⟨d, hd⟩ := horigin new
    exact h.link he hd (hanch.1 d hd) hanch.2
  | unlink path =>
    obtain ⟨d, hd⟩ := horigin path
    exact h.unlink hd hspare
  | chdir path =>
    obtain ⟨d, hd⟩ := horigin path
    exact h.chdir hd ⟨c, hc⟩
  | dup fd => exact h.dup
  | close fd => exact h.close
  | fork np => exact h.fork hc hop.1 hop.2
  | exit => exact h.exit hc

theorem FsRun.inv (hrun : FsRun Anchored s ops s') (h : FsInv false [] s) : FsInv false [] s' := by
  induction hrun with
  | nil s => exact h
  | cons hen hanch hcall _ ih =>
    have hnext := fsCall_spec h hen hanch fun hs => Bool.noConfusion hs
    have hinv := wp_ok hnext hcall
    exact ih hinv

theorem FsRun.inv_sparing (hrun : FsRun Sparing s ops s') (h : FsInv true [] s) :
    FsInv true [] s' := by
  induction hrun with
  | nil s => exact h
  | cons hen hspare hcall _ ih =>
    have hnext := fsCall_spec h hen (hspare.anchored h) fun _ => hspare
    have hinv := wp_ok hnext hcall
    exact ih hinv

/-! ### The image -/

/-- Names that `mkfs` can put into the root directory. -/
structure ImageNames (names : List Str) : Prop where
  few : names.length + 2 ≤ NINODES
  plain : ∀ name ∈ names, name ≠ dot ∧ name ≠ dotdot

/-- The entries of the files in the root directory. -/
def fileDirents (c : Nat) (names : List Str) : List Dirent := names.mapIdx fun k name => ⟨name, k + c⟩

theorem fileDirents_cons (c : Nat) (name : Str) (names : List Str) :
    fileDirents c (name :: names) = ⟨name, c⟩ :: fileDirents (c + 1) names := by
  rw [fileDirents, List.mapIdx_cons, fileDirents, Nat.zero_add]
  congr 1
  refine congrArg (names.mapIdx ·) (funext fun k => funext fun n => ?_)
  rw [Nat.add_assoc, Nat.add_comm 1 c]

theorem mem_fileDirents {c : Nat} {de : Dirent} (h : de ∈ fileDirents c names) :
    de.name ∈ names ∧ c ≤ de.inum ∧ de.inum < c + names.length := by
  induction names generalizing c with
  | nil => cases h
  | cons name names ih => grind [fileDirents_cons, List.mem_cons_self]

theorem countP_fileDirents (c : Nat) (names : List Str) (i : Nat) :
    (fileDirents c names).countP (fun de => decide (de.inum = i)) =
      if c ≤ i ∧ i < c + names.length then 1 else 0 := by
  induction names generalizing c with
  | nil =>
    rw [List.length_nil, if_neg (by omega)]
    rfl
  | cons name names ih => grind [fileDirents_cons, List.length_cons]

/-- What is in the root directory besides `.` and `..`. -/
def rootNames (names : List Str) : List Dirent :=
  fileDirents 2 names ++
    List.replicate (((names.length + 2) / 32 + 1) * 32 - (names.length + 2)) ⟨[], 0⟩

theorem mkfs_root (names : List Str) : mkfs names ROOTINO =
    ⟨.dir, 1, ⟨dot, ROOTINO⟩ :: ⟨dotdot, ROOTINO⟩ :: rootNames names⟩ := by
  simp only [mkfs, if_true, rootNames, fileDirents, List.length_cons, List.length_mapIdx,
    List.cons_append]

theorem mkfs_file (names : List Str) (h : 2 ≤ i ∧ i < names.length + 2) :
    mkfs names i = ⟨.file, 1, []⟩ := by
  rw [mkfs, if_neg (by simp only [ROOTINO]; omega), if_pos h]

theorem mkfs_free (names : List Str) (hroot : i ≠ ROOTINO) (h : ¬ (2 ≤ i ∧ i < names.length + 2)) :
    mkfs names i = ⟨.free, 0, []⟩ := by
  rw [mkfs, if_neg hroot, if_neg h]

theorem rootino_lt : ROOTINO < NINODES := by decide

theorem root_nlink (names : List Str) : (mkfs names ROOTINO).nlink ≠ 0 := by
  rw [mkfs_root]
  exact (by decide : (1 : BitVec 16) ≠ 0)

theorem mkfs_dir (h : (mkfs names i).type = .dir) : i = ROOTINO := by
  by_contra hroot
  by_cases hfile : 2 ≤ i ∧ i < names.length + 2
  · rw [mkfs_file names hfile] at h
    cases h
  · rw [mkfs_free names hroot hfile] at h
    cases h

theorem mem_rootNames {de : Dirent} (hde : de ∈ rootNames names) (hi : de.inum ≠ 0) :
    de.name ∈ names ∧ 2 ≤ de.inum ∧ de.inum < names.length + 2 := by
  rcases List.mem_append.1 hde with hde | hde
  · obtain ⟨hname, hlo, hhi⟩ := mem_fileDirents hde
    exact ⟨hname, hlo, by omega⟩
  · grind

theorem mkfs_nameCount (names : List Str) (hi : i ≠ 0) : nameCount (mkfs names) i =
    if 2 ≤ i ∧ i < 2 + names.length then 1 else 0 := by
  have hone : nameCount (mkfs names) i = (mkfs names ROOTINO).nameCount i :=
    tally_eq_single rootino_lt fun d hd =>
      Inode.nameCount_of_not_dir fun hdir => hd (mkfs_dir hdir)
  have hpad : ∀ n, (List.replicate n (⟨[], 0⟩ : Dirent)).countP
      (fun de => decide (de.inum = i)) = 0 := by grind
  rw [hone, mkfs_root, Inode.nameCount, if_pos rfl]
  show (rootNames names).countP _ = _
  rw [rootNames, List.countP_append, countP_fileDirents, hpad, Nat.add_zero]

theorem mkfs_upCount (names : List Str) (i : Nat) :
    upCount (mkfs names) i = if i = ROOTINO then 1 else 0 := by
  have hone : upCount (mkfs names) i = (mkfs names ROOTINO).upCount i :=
    tally_eq_single rootino_lt fun d hd =>
      Inode.upCount_of_not_live fun hl => hd (mkfs_dir hl.1)
  have hlive : (mkfs names ROOTINO).Live := ⟨by rw [mkfs_root], root_nlink names⟩
  have hup : (mkfs names ROOTINO).up = ROOTINO := by rw [mkfs_root]; rfl
  rw [hone, Inode.upCount, hup]
  by_cases hi : i = ROOTINO
  · rw [if_pos hi, if_pos ⟨hlive, hi.symm⟩]
  · rw [if_neg hi, if_neg fun hc => hi hc.2.symm]

theorem mkfs_tree (h : ImageNames names) : TreeInv (mkfs names) := by
  have hshape : ∀ d, (mkfs names d).type = .dir → Shaped d (mkfs names d) := by
    intro d hdir
    obtain rfl := mkfs_dir hdir
    rw [mkfs_root]
    have hpos : 1 ≤ ROOTINO := Nat.le_refl 1
    refine ⟨rfl, hpos, hpos, fun de hde hi => ?_⟩
    exact h.plain _ (mem_rootNames hde hi).1
  have hfew := h.few
  refine ⟨fun i halloc => ?_, hshape, ?_, fun d de hdir hde hi => ?_, fun i hdir => ?_,
    fun d hdir hzero => ?_, fun i halloc => ?_⟩
  · by_cases hroot : i = ROOTINO
    · rw [hroot]
      decide
    · by_cases hfile : 2 ≤ i ∧ i < names.length + 2
      · omega
      · rw [mkfs_free names hroot hfile] at halloc
        exact (halloc rfl).elim
  · refine ⟨⟨by rw [mkfs_root], root_nlink names⟩, ?_⟩
    rw [mkfs_root]
    rfl
  · obtain rfl := mkfs_dir hdir
    rw [mkfs_root] at hde
    rw [mkfs_file names (mem_rootNames hde hi).2]
    exact ⟨(by simp), (by simp)⟩
  · obtain rfl := mkfs_dir hdir
    rw [mkfs_nameCount names (by decide), if_pos (Or.inl rfl), if_neg]
    exact fun hc => absurd hc.1 (by decide)
  · obtain rfl := mkfs_dir hdir
    exact (root_nlink names hzero).elim
  · by_cases hroot : i = ROOTINO
    · subst hroot
      have hno : ¬ (2 ≤ ROOTINO ∧ ROOTINO < 2 + names.length) := fun hc => absurd hc.1 (by decide)
      rw [links_eq hshape (by decide), mkfs_nameCount names (by decide), mkfs_upCount, mkfs_root,
        if_neg hno, if_pos rfl]
      exact ⟨rfl, by decide⟩
    · by_cases hfile : 2 ≤ i ∧ i < names.length + 2
      · rw [links_eq hshape (by omega), mkfs_nameCount names (by omega), mkfs_upCount, if_neg hroot,
          if_pos (by omega), mkfs_file names hfile]
        decide
      · rw [mkfs_free names hroot hfile] at halloc
        exact (halloc rfl).elim

theorem start_inv (h : ImageNames names) : FsInv strict [] (Fs.start names) := by
  have hcwd : ∀ q d, (Fs.start names).cwd q = some d → q = 0 ∧ d = ROOTINO := by grind [Fs.start]
  have hlinked : ∀ i, (mkfs names i).type ≠ .free → (mkfs names i).nlink ≠ 0 := by
    intro i halloc
    by_cases hroot : i = ROOTINO
    · rw [hroot]
      exact root_nlink names
    · by_cases hfile : 2 ≤ i ∧ i < names.length + 2
      · rw [mkfs_file names hfile]
        decide
      · rw [mkfs_free names hroot hfile] at halloc
        exact (halloc rfl).elim
  have hrefs : ∀ i, (Fs.start names).ref i = (Fs.start names).users i + List.count i [] := by
    intro i
    have hfiles : tally NFILE (FileEntry.uses i) (Fs.start names).ftable = 0 :=
      tally_eq_zero.2 fun f _ => if_neg fun hc => by cases hc.1
    have hone : tally NPROC (cwdUses i) (Fs.start names).cwd = cwdUses i (some ROOTINO) := by
      have hpos : 0 < NPROC := by decide
      apply tally_eq_single hpos
      intro q hq
      have hnone : (Fs.start names).cwd q = none := if_neg hq
      rw [hnone]
      exact if_neg (by simp)
    rw [Fs.users, hfiles, hone, List.count_nil, cwdUses]
    simp only [Fs.start, Nat.zero_add, Nat.add_zero, Option.some.injEq, eq_comm]
  refine ⟨⟨hrefs, fun i halloc hz => (hlinked i halloc hz).elim, fun i _ hv => ?_,
    fun f hf => ?_, fun q d hq => ?_⟩, mkfs_tree h, fun _ d hdir => ?_⟩
  · cases hv
  · cases hf
  · obtain ⟨rfl, rfl⟩ := hcwd q d hq
    refine ⟨by decide, ?_⟩
    show (mkfs names ROOTINO).type = .dir
    rw [mkfs_root]
  · have hroot := mkfs_dir hdir
    rw [hroot]
    exact root_nlink names

/-! ### Every run -/

/-- In every run from any image in which no name is made from a directory that has been
    unlinked, the link count of every inode is the number of entries that name it, an inode
    without links is open or somebody's current directory, and no call finds an entry for
    an inode with a count below one. -/
theorem link_counts_exact (hnames : ImageNames names) (hrun : FsRun Anchored (Fs.start names) ops s) :
    (∀ i, (s.inode i).type ≠ .free → (s.inode i).nlink.toNat = links s.inode i) ∧
    (∀ i, (s.inode i).type ≠ .free → links s.inode i = 0 → 0 < s.users i) ∧
    ∀ p op, FsEnabled s p op → Anchored s p op →
      fsCall p op s ≠ .error (.panic .unlinkNlink) := by
  have h := hrun.inv (start_inv hnames)
  refine ⟨fun i halloc => (h.tree.exact i halloc).1, fun i halloc hzero => ?_,
    fun p op hen hanch herr => ?_⟩
  · have hcount := (h.tree.exact i halloc).1
    rw [hzero] at hcount
    apply h.refs.orphansUsed i halloc
    exact BitVec.eq_of_toNat_eq hcount
  · have hstops := wp_error (fsCall_spec h hen hanch fun hs => Bool.noConfusion hs) herr
    simp [Stops] at hstops

theorem imageNames_nil : ImageNames [] := ⟨by decide, fun _ hname => by cases hname⟩

/-- The run that makes `/a`. -/
theorem mkdir_run : ∃ s, FsRun Anchored (Fs.start []) [(0, .mkdir [slash, 97])] s := by
  have hreturns : (match fsCall 0 (.mkdir [slash, 97]) (Fs.start []) with
      | .ok _ => true
      | .error _ => false) = true := by decide +kernel
  split at hreturns
  · next rs hcall =>
      obtain ⟨r, s⟩ := rs
      refine ⟨s, .cons (by decide) (fun d hd => ?_) hcall (.nil s)⟩
      cases hd
      exact root_nlink []
  · cases hreturns

theorem link_counts_exact_mkdir : ∃ s, FsRun Anchored (Fs.start []) [(0, .mkdir [slash, 97])] s ∧
    (∀ i, (s.inode i).type ≠ .free → (s.inode i).nlink.toNat = links s.inode i) := by
  obtain ⟨s, hrun⟩ := mkdir_run
  exact ⟨s, hrun, (link_counts_exact imageNames_nil hrun).1⟩

/-- In these runs every directory but the root has exactly one name, in the directory that
    its `..` names, which has not been unlinked either. -/
theorem directory_named_by_parent (hnames : ImageNames names)
    (hrun : FsRun Anchored (Fs.start names) ops s) :
    ∀ d, (s.inode d).Live → d ≠ ROOTINO → nameCount s.inode d = 1 ∧
      (s.inode (s.inode d).up).Live ∧ ∃ de ∈ (s.inode (s.inode d).up).names, de.inum = d := by
  intro d hlive hroot
  have htree := (hrun.inv (start_inv hnames)).tree
  have honce := htree.once d hlive.1
  rw [if_neg (not_or.2 ⟨hroot, hlive.2⟩)] at honce
  exact ⟨honce, htree.up_live hlive, (htree.name_of_live hlive hroot).2⟩

theorem directory_named_by_parent_mkdir : ∃ s, FsRun Anchored (Fs.start []) [(0, .mkdir [slash, 97])] s ∧
    ∀ d, (s.inode d).Live → d ≠ ROOTINO → nameCount s.inode d = 1 := by
  obtain ⟨s, hrun⟩ := mkdir_run
  exact ⟨s, hrun, fun d hlive hroot => (directory_named_by_parent imageNames_nil hrun d hlive hroot).1⟩

/-- In these runs the reference count of every inode is the number of open files and current
    directories it is, those are allocated, and a call stops only as `Stops` says. -/
theorem inode_refs_exact (hnames : ImageNames names) (hrun : FsRun Anchored (Fs.start names) ops s) :
    (∀ i, s.ref i = s.users i) ∧
    (∀ f, (s.ftable f).type = .inode → (s.inode (s.ftable f).ip).type ≠ .free) ∧
    (∀ p d, s.cwd p = some d → (s.inode d).type = .dir) ∧
    ∀ p op e, FsEnabled s p op → Anchored s p op → fsCall p op s = .error e → Stops false e := by
  have h := hrun.inv (start_inv hnames)
  refine ⟨fun i => ?_, fun f hf => (h.refs.opened f hf).2.2, fun p d hp => (h.refs.cwds p d hp).2,
    fun p op e hen hanch herr => ?_⟩
  · rw [h.refs.refs, List.count_nil, Nat.add_zero]
  · exact wp_error (fsCall_spec h hen hanch fun hs => Bool.noConfusion hs) herr

theorem inode_refs_exact_mkdir : ∃ s, FsRun Anchored (Fs.start []) [(0, .mkdir [slash, 97])] s ∧
    ∀ i, s.ref i = s.users i := by
  obtain ⟨s, hrun⟩ := mkdir_run
  exact ⟨s, hrun, (inode_refs_exact imageNames_nil hrun).1⟩

/-- `mkdir a; chdir a; unlink /a; open f O_CREATE; close; chdir /`: the directory is freed with
    its entry for `f`, which keeps a link count of one and never goes away. -/
def orphanCalls : List (Nat × FsOp) :=
  [(0, .mkdir [97]), (0, .chdir [97]), (0, .unlink [slash, 97]), (0, .open [102] O_CREATE),
    (0, .close 0), (0, .chdir [slash])]

theorem link_counts_inexact : ∃ s, FsRun Anything (Fs.start []) orphanCalls s ∧
    ∃ i, (s.inode i).type ≠ .free ∧ (s.inode i).nlink.toNat = 1 ∧ links s.inode i = 0 ∧
      s.users i = 0 := by
  have heval : ((Fs.start []).after orphanCalls).any (fun s =>
      decide ((s.inode 3).type ≠ .free ∧ (s.inode 3).nlink.toNat = 1 ∧ links s.inode 3 = 0 ∧
        s.users 3 = 0)) = true := by decide +kernel
  obtain ⟨s, hafter, hs⟩ := (Option.any_eq_true _ _).1 heval
  exact ⟨s, .of_after hafter, 3, of_decide_eq_true hs⟩

/-- In every run from any image in which no directory is unlinked that is open or somebody's
    current directory, every entry of every directory names an inode that is allocated, and
    no lookup reads an inode that is not. -/
theorem entries_name_allocated (hnames : ImageNames names)
    (hrun : FsRun Sparing (Fs.start names) ops s) :
    (∀ d, (s.inode d).type = .dir → ∀ de ∈ (s.inode d).entries, de.inum ≠ 0 →
      (s.inode de.inum).type ≠ .free) ∧
    ∀ p op, FsEnabled s p op → Sparing s p op →
      fsCall p op s ≠ .error (.panic .ilockNoType) := by
  have h := hrun.inv_sparing (start_inv hnames)
  refine ⟨fun d hdir de hde hi => ?_, fun p op hen hspare herr => ?_⟩
  · rw [(h.tree.shape d hdir).entries] at hde
    rcases List.mem_cons.1 hde with rfl | hde
    · rw [hdir]
      simp
    rcases List.mem_cons.1 hde with rfl | hde
    · have hup := h.tree.up_live ⟨hdir, h.linked rfl d hdir⟩
      rw [hup.1]
      simp
    · exact (h.tree.named d de hdir hde hi).1
  · have hstops := wp_error (fsCall_spec h hen (hspare.anchored h) fun _ => hspare) herr
    simp [Stops] at hstops

theorem entries_name_allocated_mkdir : ∃ ops s, FsRun Sparing (Fs.start []) ops s ∧ ops ≠ [] ∧
    ∀ d, (s.inode d).type = .dir → ∀ de ∈ (s.inode d).entries, de.inum ≠ 0 →
      (s.inode de.inum).type ≠ .free := by
  obtain ⟨s, hrun⟩ := mkdir_run
  cases hrun with
  | cons hen _ hcall hrest =>
    have hrun : FsRun Sparing (Fs.start []) [(0, .mkdir [slash, 97])] s := by
      cases hrest
      exact .cons hen trivial hcall (.nil s)
    exact ⟨_, s, hrun, (by simp), (entries_name_allocated imageNames_nil hrun).1⟩

/-- `mkdir a; mkdir a/b; chdir a/b; unlink /a/b; unlink /a`. -/
def danglingCalls : List (Nat × FsOp) :=
  [(0, .mkdir [97]), (0, .mkdir [97, slash, 98]), (0, .chdir [97, slash, 98]),
    (0, .unlink [slash, 97, slash, 98]), (0, .unlink [slash, 97])]

/-- The current directory of the process is still there, and its `..` names a freed inode:
    looking it up stops the kernel. -/
theorem dangling_parent : ∃ s, FsRun Anything (Fs.start []) danglingCalls s ∧
    (∃ d, s.cwd 0 = some d ∧ (s.inode d).type = .dir ∧
      ∃ de ∈ (s.inode d).entries, de.inum ≠ 0 ∧ (s.inode de.inum).type = .free) ∧
    FsEnabled s 0 (.open dotdot O_RDONLY) ∧
    fsCall 0 (.open dotdot O_RDONLY) s = .error (.panic .ilockNoType) := by
  have heval : ((Fs.start []).after danglingCalls).any (fun s =>
      decide (s.cwd 0 = some 3 ∧ (s.inode 3).type = .dir ∧
        ∃ de ∈ (s.inode 3).entries, de.inum ≠ 0 ∧ (s.inode de.inum).type = .free) &&
      decide (FsEnabled s 0 (.open dotdot O_RDONLY)) &&
      (match fsCall 0 (.open dotdot O_RDONLY) s with
        | .error e => decide (e = .panic .ilockNoType)
        | .ok _ => false)) = true := by decide +kernel
  obtain ⟨s, hafter, hs⟩ := (Option.any_eq_true _ _).1 heval
  rw [Bool.and_eq_true, Bool.and_eq_true] at hs
  obtain ⟨⟨hentry, hen⟩, hcall⟩ := hs
  refine ⟨s, .of_after hafter, ⟨3, of_decide_eq_true hentry⟩, of_decide_eq_true hen, ?_⟩
  split at hcall
  · grind
  · cases hcall

end CowPaging
