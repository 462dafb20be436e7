import CowPaging.NameCalls

/-!
# The remaining calls

`unlink`, `open`, `mkdir`, `mknod` and `chdir` are put together from lookup, `create` and
the change of one entry; `close`, `dup`, `fork` and `exit` move references between open
files, current directories and the call. Each of them keeps `FsInv`.
-/

namespace CowPaging

open Bytes StateExcept SlotTable Tally
open Function (update_of_ne update_self update_idem update)

variable {strict : Bool} {s s' : Fs} {t : Files} {held held' : List Nat} {i d dp f p np : Nat}
  {name path : Str} {ty : InodeType}

theorem stops_filedup : Stops strict (.panic .filedup) := .inr (.inr (.inr (.inl rfl)))
theorem stops_fileclose : Stops strict (.panic .fileclose) :=
  .inr (.inr (.inr (.inr (.inl rfl))))

/-! ### `unlink` -/

theorem FsInv.unlink (h : FsInv strict [] s) (hd : s.origin p path = some d)
    (hunused : strict = true → ∀ a, s.resolve p path = some a → (s.inode a).type = .dir →
      s.users a = 0) :
    wp (sysUnlink p path) s (fun _ s' => FsInv strict [] s') (Stops strict) := by
  rw [sysUnlink, wp_bind, nameiparent]
  refine wp_conseq (namex_spec h.refs.orphansUsed h.refs h.tree.closed stops_iget hd
    (h.origin_good hd)) ?_
  rintro r s1 ⟨hr, hsame1, h1⟩
  cases r with
  | none => exact h.same hsame1 h1
  | some r =>
    obtain ⟨dp, name⟩ := r
    have hdir : (s.inode dp).type = .dir := walkNames_parent_dir hr.symm
    simp only [wp_bind]
    refine wp_conseq (h1.ilock List.mem_cons_self
      (.inl (by rw [hsame1.inode, hdir]; exact (by simp)))) ?_
    rintro - s2 ⟨hsame2, h2, -, -⟩
    have hsame := hsame1.trans hsame2
    refine wp_ite (fun _ => ?_) fun hdots => ?_
    · simp only [wp_bind, wp_iput, wp_pure]
      exact (h.same hsame h2).put
    rw [wp_bind]
    refine wp_conseq (h2.dirlookup (by rw [hsame.inode]; exact hdir) stops_iget) ?_
    rintro r s3 ⟨hfind, hsame3, h3⟩
    have hsame' := hsame.trans hsame3
    cases r with
    | none =>
      simp only [wp_bind, wp_iput, wp_pure]
      exact (h.same hsame' h3).put
    | some r =>
      obtain ⟨a, off⟩ := r
      rw [hsame.inode] at hfind
      obtain ⟨ha, hoff⟩ := findDirent_some hfind.symm
      refine (h.same hsame' h3).unlinkEntry (by rw [hsame'.inode]; exact hdir)
        (not_or.1 hdots) ha (by rw [hsame'.inode]; exact hoff) fun hs hda => ?_
      rw [hsame'.inode] at hda
      rw [hsame'.users]
      refine hunused hs a ?_ hda
      rw [Fs.resolve, hd, Option.bind_some, walkNames_last hr.symm, lookup, if_pos hdir, ← hfind]
      rfl

/-! ### Open files -/

theorem RefInv.files (h : RefInv held s)
    (huses : ∀ i, tally NFILE (FileEntry.uses i) t.ftable + held'.count i =
      tally NFILE (FileEntry.uses i) s.ftable + held.count i)
    (hopened : ∀ f, (t.ftable f).type = .inode →
      f < NFILE ∧ 1 ≤ (t.ftable f).ref ∧ (s.inode (t.ftable f).ip).type ≠ .free) :
    RefInv held' { s with toFiles := t } where
  refs i := by
    have hrefs := h.refs i
    have hi := huses i
    rw [Fs.users] at hrefs
    show s.ref i = tally NFILE (FileEntry.uses i) t.ftable + tally NPROC (cwdUses i) s.cwd + _
    omega
  orphan := h.orphan
  unread := h.unread
  opened := hopened
  cwds := h.cwds

theorem FsInv.files (h : FsInv strict held s) (hrefs : RefInv held' { s with toFiles := t }) :
    FsInv strict held' { s with toFiles := t } := ⟨hrefs, h.tree, h.linked⟩

theorem FsInv.descriptors (h : FsInv strict held s) (htable : t.ftable = s.ftable) :
    FsInv strict held { s with toFiles := t } := by
  refine h.files (h.refs.files (fun i => ?_) fun f hf => ?_)
  · rw [htable]
  · rw [htable] at hf ⊢
    exact h.refs.opened f hf

/-- One entry of the file table changes. What it counts for is taken from the call, or goes
    to it. -/
theorem FsInv.setFile {g : FileEntry → FileEntry} (h : FsInv strict held s)
    (huses : ∀ i, FileEntry.uses i (g (s.ftable f)) + held'.count i =
      FileEntry.uses i (s.ftable f) + held.count i)
    (hopen : (g (s.ftable f)).type = .inode → f < NFILE ∧ 1 ≤ (g (s.ftable f)).ref ∧
      (s.inode (g (s.ftable f)).ip).type ≠ .free) :
    FsInv strict held' { s with toFiles := s.toFiles.setFile f g } := by
  have hnot : ¬ f < NFILE → ∀ i, FileEntry.uses i (s.ftable f) = 0 ∧
      FileEntry.uses i (g (s.ftable f)) = 0 := fun hlt i =>
    ⟨if_neg fun hc => hlt (h.refs.opened f hc.1).1, if_neg fun hc => hlt (hopen hc.1).1⟩
  refine h.files (h.refs.files (fun i => ?_) fun f' hf' => ?_)
  · have hi := huses i
    show tally NFILE _ (update s.ftable f (g (s.ftable f))) + _ = _
    by_cases hlt : f < NFILE
    · grind [tally_update, FileEntry.uses]
    · grind [tally_update_eq]
  · by_cases hff : f' = f
    · subst hff
      simp only [Files.setFile, update_self] at hf' ⊢
      exact hopen hf'
    · simp only [Files.setFile, update_of_ne hff] at hf' ⊢
      exact h.refs.opened f' hf'

theorem FsInv.recount {g : FileEntry → FileEntry} (h : FsInv strict held s)
    (hsame : (g (s.ftable f)).type = (s.ftable f).type ∧ (g (s.ftable f)).ip = (s.ftable f).ip)
    (hpos : (s.ftable f).type = .inode → 1 ≤ (g (s.ftable f)).ref) :
    FsInv strict held { s with toFiles := s.toFiles.setFile f g } := by
  refine h.setFile (fun i => ?_) fun hf => ?_
  · rw [FileEntry.uses, FileEntry.uses, hsame.1, hsame.2]
  · rw [hsame.1] at hf
    obtain ⟨hlt, -, halloc⟩ := h.refs.opened f hf
    exact ⟨hlt, hpos hf, by rw [hsame.2]; exact halloc⟩

/-- Descriptors and current directories are as before. -/
structure SameUsers (s s' : Fs) : Prop where
  ofile : s'.ofile = s.ofile
  cwd : s'.cwd = s.cwd

theorem FsInv.fileclose (h : FsInv strict held s) :
    wp (Fs.fileclose f) s (fun _ s' => FsInv strict held s' ∧ SameUsers s s') (Stops strict) := by
  rw [Fs.fileclose, wp_bind, withFiles, wp_zoom, filedrop, wp_bind, wp_get]
  refine wp_ite (fun _ => stops_fileclose) fun hpos => wp_ite (fun hmany => ?_) fun hone => ?_
  · simp only [wp_bind, wp_set, wp_pure]
    exact ⟨h.recount (g := fun f => { f with ref := f.ref - 1 }) ⟨rfl, rfl⟩
      fun _ => Nat.le_sub_of_add_le hmany, rfl, rfl⟩
  · simp only [wp_bind, wp_set, wp_pure]
    obtain ⟨g, hg⟩ : ∃ g : FileEntry → FileEntry, g = fun f => { f with ref := 0, type := .none } :=
      ⟨_, rfl⟩
    have hgone : ∀ i, FileEntry.uses i (g (s.ftable f)) = 0 := fun i => by
      rw [hg]
      exact if_neg fun hc => by cases hc.1
    have hnot : (g (s.ftable f)).type ≠ .inode := by
      rw [hg]
      simp
    rw [← hg]
    cases hty : (s.ftable f).type with
    | none =>
      refine ⟨h.setFile (fun i => ?_) fun hf => (hnot hf).elim, rfl, rfl⟩
      rw [hgone, FileEntry.uses, if_neg fun hc => by rw [hty] at hc; cases hc.1]
    | pipe =>
      refine ⟨h.setFile (fun i => ?_) fun hf => (hnot hf).elim, rfl, rfl⟩
      rw [hgone, FileEntry.uses, if_neg fun hc => by rw [hty] at hc; cases hc.1]
    | inode =>
      dsimp only
      rw [wp_iput]
      have hclosed : FsInv strict ((s.ftable f).ip :: held)
          { s with toFiles := s.toFiles.setFile f g } := by
        grind [h.setFile, count_cons_self_or, FileEntry.uses]
      obtain ⟨hfiles, hcwd⟩ := Fs.put_files { s with toFiles := s.toFiles.setFile f g } (s.ftable f).ip
      exact ⟨hclosed.put, by rw [hfiles]; rfl, hcwd⟩

/-- The end of `open`: the reference of the call goes to the new file. -/
theorem FsInv.openInode {omode : Word} (h : FsInv strict [i] s) (halloc : (s.inode i).type ≠ .free) :
    wp (openInode p i omode) s (fun _ s' => FsInv strict [] s') (Stops strict) := by
  rw [CowPaging.openInode, wp_bind, withFiles, wp_zoom, filealloc, wp_bind, wp_get]
  cases hslot : firstSlot NFILE fun i => decide ((s.ftable i).ref = 0) with
  | none =>
    simp only [wp_pure, wp_bind, wp_iput]
    exact h.put
  | some f =>
    obtain ⟨hlt, htest⟩ := firstSlot_some hslot
    have hzero : (s.ftable f).ref = 0 := of_decide_eq_true htest
    have hclosed : (s.ftable f).type ≠ .inode := fun hty => by
      have hpos := (h.refs.opened f hty).2.1
      omega
    simp only [wp_bind, wp_set, wp_pure]
    have h1 : FsInv strict [i] { s with toFiles := s.toFiles.setFile f fun f => { f with ref := 1 } } :=
      h.recount ⟨rfl, rfl⟩ fun _ => Nat.le_refl 1
    rw [withFiles, wp_zoom, fdalloc, wp_bind, wp_get]
    dsimp only
    cases firstSlot NOFILE _ with
    | none =>
      simp only [wp_pure, wp_bind, wp_iput]
      exact wp_conseq h1.fileclose fun _ s2 h2 => h2.1.put
    | some fd =>
      simp only [wp_pure, wp_bind, wp_set, wp_zoom, wp_modify]
      have h2 := h1.descriptors (t := (s.toFiles.setFile f fun f => { f with ref := 1 }).setOfile p fd
        (some f)) rfl
      have hentry : ((s.toFiles.setFile f fun f => { f with ref := 1 }).setOfile p fd
          (some f)).ftable f = { s.ftable f with ref := 1 } := update_self _ _ _
      refine h2.setFile (fun j => ?_) fun _ => ⟨hlt, ?_, halloc⟩
      · have hold : FileEntry.uses j { s.ftable f with ref := 1 } = 0 :=
          if_neg fun hc => hclosed hc.1
        dsimp only
        rw [hentry, hold, List.count_nil, count_cons_self_or, List.count_nil, FileEntry.uses]
        by_cases hj : j = i
        · rw [if_pos hj, if_pos ⟨rfl, hj.symm⟩]
        · rw [if_neg hj, if_neg fun hc => hj hc.2.symm]
      · dsimp only
        rw [hentry]

theorem FsInv.sysOpen {omode : Word} (h : FsInv strict [] s) (hd : s.origin p path = some d)
    (hlive : omode &&& O_CREATE ≠ 0 → (s.inode d).nlink ≠ 0) :
    wp (Fs.sysOpen p path omode) s (fun _ s' => FsInv strict [] s') (Stops strict) := by
  rw [Fs.sysOpen]
  refine wp_ite (fun hcreate => ?_) fun _ => ?_
  · rw [wp_bind]
    refine wp_conseq (h.create hd (hlive hcreate) (by simp)) ?_
    rintro r s1 ⟨h1, halloc⟩
    cases r with
    | none => exact h1
    | some ip => exact h1.openInode (halloc ip rfl)
  · rw [wp_bind]
    refine wp_conseq (h.namei hd) ?_
    rintro r s1 ⟨-, hsame1, h1, halloc⟩
    cases r with
    | none => exact h.same hsame1 h1
    | some ip =>
      simp only [wp_bind]
      refine wp_conseq (h1.ilock List.mem_cons_self (by rw [hsame1.inode]; exact halloc ip rfl)) ?_
      rintro - s2 ⟨hsame2, h2, -, halloc2⟩
      have hsame := hsame1.trans hsame2
      have hall := h.same hsame h2
      rw [wp_get]
      refine wp_ite (fun _ => ?_) fun _ => hall.openInode (by rw [hsame2.inode]; exact halloc2)
      simp only [wp_bind, wp_iput, wp_pure]
      exact hall.put

/-- `mkdir` and `mknod`. -/
theorem FsInv.makeNode (h : FsInv strict [] s) (hd : s.origin p path = some d)
    (hlive : (s.inode d).nlink ≠ 0) (hty : ty ≠ .free) :
    wp (makeNode p path ty) s (fun _ s' => FsInv strict [] s') (Stops strict) := by
  rw [CowPaging.makeNode, wp_bind]
  refine wp_conseq (h.create hd hlive hty) ?_
  rintro r s1 ⟨h1, -⟩
  cases r with
  | none => exact h1
  | some ip =>
    simp only [wp_bind, wp_iput, wp_pure]
    exact h1.put

theorem FsInv.close {fd : Nat} (h : FsInv strict [] s) :
    wp (Fs.sysClose p fd) s (fun _ s' => FsInv strict [] s') (Stops strict) := by
  rw [Fs.sysClose, wp_bind, withFiles, wp_zoom, argfd, wp_bind, wp_get, wp_pure]
  cases (if fd < NOFILE then s.ofile p fd else none) with
  | none => exact h
  | some f =>
    simp only [wp_bind, withFiles, wp_zoom, wp_modify, wp_pure]
    exact wp_conseq (h.descriptors (t := s.toFiles.setOfile p fd none) rfl).fileclose
      fun _ _ h' => h'.1

theorem FsInv.filedup (h : FsInv strict held s) :
    wp (filedup f) s.toFiles (fun _ t => FsInv strict held { s with toFiles := t } ∧
      t.ofile = s.ofile) (Stops strict) := by
  rw [CowPaging.filedup, wp_bind, wp_get]
  refine wp_ite (fun _ => stops_filedup) fun _ => ?_
  exact ⟨h.recount (g := fun f => { f with ref := f.ref + 1 }) ⟨rfl, rfl⟩
    fun _ => Nat.le_add_left 1 _, rfl⟩

theorem FsInv.dup {fd : Nat} (h : FsInv strict [] s) :
    wp (withFiles (sysDup p fd)) s (fun _ s' => FsInv strict [] s') (Stops strict) := by
  rw [withFiles, wp_zoom, sysDup, wp_bind, argfd, wp_bind, wp_get, wp_pure]
  cases (if fd < NOFILE then s.ofile p fd else none) with
  | none => exact h
  | some f =>
    simp only [wp_bind, fdalloc, wp_get]
    cases firstSlot NOFILE _ with
    | none => exact h
    | some fd' =>
      simp only [wp_bind, wp_set, wp_pure]
      exact wp_conseq (h.descriptors (t := s.toFiles.setOfile p fd' (some f)) rfl).filedup
        fun _ _ h' => h'.1

/-! ### Current directories -/

def Fs.setCwd (s : Fs) (p : Nat) (c : Option Nat) : Fs :=
  { s with cwd := update s.cwd p c }

theorem FsInv.leave (h : FsInv strict held s) (hp : s.cwd p = some d) :
    FsInv strict (d :: held) (s.setCwd p none) := by
  obtain ⟨hlt, -⟩ := h.refs.cwds p d hp
  refine ⟨⟨fun i => ?_, h.refs.orphan, h.refs.unread, h.refs.opened, fun q e hq => ?_⟩, h.tree, h.linked⟩
  · have hsum := tally_update (f := cwdUses i) (t := s.cwd) (x := none) hlt
    have hrefs := h.refs.refs i
    rw [Fs.users] at hrefs
    rw [cwdUses, hp, cwdUses, if_neg (by simp : none ≠ some i)] at hsum
    show s.ref i = tally NFILE _ s.ftable + tally NPROC _ (update s.cwd p none) + _
    rw [count_cons_self_or]
    by_cases hi : i = d
    · grind
    · grind
  · by_cases hqp : q = p
    · subst hqp
      simp only [Fs.setCwd, update_self] at hq
      cases hq
    · simp only [Fs.setCwd, update_of_ne hqp] at hq
      exact h.refs.cwds q e hq

theorem FsInv.enter (h : FsInv strict (d :: held) s) (hp : s.cwd p = none) (hlt : p < NPROC)
    (hdir : (s.inode d).type = .dir) :
    FsInv strict held (s.setCwd p (some d)) := by
  refine ⟨⟨fun i => ?_, h.refs.orphan, h.refs.unread, h.refs.opened, fun q e hq => ?_⟩, h.tree, h.linked⟩
  · have hsum := tally_update (f := cwdUses i) (t := s.cwd) (x := some d) hlt
    have hrefs := h.refs.refs i
    rw [Fs.users, count_cons_self_or] at hrefs
    rw [hp, cwdUses, if_neg (by simp : none ≠ some i), cwdUses] at hsum
    show s.ref i = tally NFILE _ s.ftable + tally NPROC _ (update s.cwd p (some d)) + _
    by_cases hi : i = d
    · grind
    · grind
  · by_cases hqp : q = p
    · subst hqp
      simp only [Fs.setCwd, update_self, Option.some.injEq] at hq
      exact ⟨hlt, hq ▸ hdir⟩
    · simp only [Fs.setCwd, update_of_ne hqp] at hq
      exact h.refs.cwds q e hq

/-- `iput` does not look at the current directories. -/
theorem Fs.put_setCwd (s : Fs) (c : Option Nat) : (s.setCwd p c).put i = (s.put i).setCwd p c := by
  by_cases hlast : s.Last i
  · rw [Fs.put_of_last hlast, Fs.put_of_last (show (s.setCwd p c).Last i from hlast)]
    rfl
  · rw [Fs.put_of_not_last hlast, Fs.put_of_not_last (show ¬ (s.setCwd p c).Last i from hlast)]
    rfl

theorem Fs.setCwd_setCwd (s : Fs) (c c' : Option Nat) : (s.setCwd p c).setCwd p c' = s.setCwd p c' := by
  simp only [Fs.setCwd, update_idem]

theorem RefInv.put_inode (h : RefInv (i :: held) s) (hd : d ∈ held) :
    (s.put i).inode d = s.inode d := by
  by_cases hdi : d = i
  · subst hdi
    have hcount := List.count_pos_iff.2 hd
    have hrefs := h.refs d
    rw [count_cons_self_or, if_pos rfl] at hrefs
    rw [Fs.put_of_not_last fun hlast => ?_]
    · rfl
    · have hone := hlast.2.2
      omega
  · exact Fs.put_inode_of_ne s hdi

theorem FsInv.chdir (h : FsInv strict [] s) (hd : s.origin p path = some d)
    (hp : ∃ e, s.cwd p = some e) :
    wp (sysChdir p path) s (fun _ s' => FsInv strict [] s') (Stops strict) := by
  obtain ⟨e, he⟩ := hp
  rw [sysChdir, wp_bind]
  refine wp_conseq (h.namei hd) ?_
  rintro r s1 ⟨-, hsame1, h1, halloc⟩
  cases r with
  | none => exact h.same hsame1 h1
  | some ip =>
    simp only [wp_bind]
    refine wp_conseq (h1.ilock List.mem_cons_self (by rw [hsame1.inode]; exact halloc ip rfl)) ?_
    rintro - s2 ⟨hsame2, h2, -, -⟩
    have hsame := hsame1.trans hsame2
    have hall := h.same hsame h2
    have he2 : s2.cwd p = some e := by rw [hsame.cwd, he]
    rw [wp_get]
    refine wp_ite (fun _ => ?_) fun hdir => ?_
    · simp only [wp_bind, wp_iput, wp_pure]
      exact hall.put
    rw [he2]
    simp only [wp_bind, wp_iput, wp_modify, wp_pure]
    have hleft := hall.leave he2
    have hput := hleft.put
    rw [Fs.put_setCwd] at hput
    have hdir' : (((s2.put e).setCwd p none).inode ip).type = .dir := by
      rw [← Fs.put_setCwd, hleft.refs.put_inode List.mem_cons_self]
      exact not_not.1 hdir
    have hin := hput.enter (update_self _ _ _) (h.refs.cwds p e he).1 hdir'
    rwa [Fs.setCwd_setCwd] at hin

/-! ### `fork` and `exit` -/

theorem FsInv.fork (h : FsInv strict [] s) (hp : s.cwd p = some d) (hnp : s.cwd np = none)
    (hlt : np < NPROC) :
    wp (Fs.fork p np) s (fun _ s' => FsInv strict [] s') (Stops strict) := by
  have hfiles : wp (forkFiles p np) s.toFiles
      (fun _ t => FsInv strict [] { s with toFiles := t }) (Stops strict) := by
    refine wp_loopFrom (fun _ t => FsInv strict [] { s with toFiles := t }) (fun fd t _ _ ht => ?_) h
    rw [wp_bind, wp_get]
    cases t.ofile p fd with
    | none => exact ht
    | some f =>
      simp only [wp_bind, wp_modify]
      exact wp_conseq ht.filedup fun _ t' ht' => ht'.1.descriptors rfl
  rw [Fs.fork, wp_bind, withFiles, wp_zoom]
  refine wp_conseq hfiles fun _ t ht => ?_
  rw [wp_bind, wp_get]
  dsimp only
  rw [hp]
  simp only [wp_bind]
  have hcwd : ({ s with toFiles := t } : Fs).cwd p = some d := hp
  refine wp_conseq (ht.refs.idup (ht.refs.users_cwd hcwd)) ?_
  rintro _ s1 ⟨rfl, hsame, h1⟩
  rw [wp_modify, wp_pure]
  have hnone : s1.cwd np = none := by rw [hsame.cwd]; exact hnp
  refine (ht.same hsame h1).enter hnone hlt ?_
  rw [hsame.inode]
  exact (h.refs.cwds p _ hp).2

theorem FsInv.exit (h : FsInv strict [] s) (hp : s.cwd p = some d) :
    wp (Fs.exit p) s (fun _ s' => FsInv strict [] s') (Stops strict) := by
  rw [Fs.exit, wp_bind]
  refine wp_conseq (wp_loopFrom (fun _ s' => FsInv strict [] s' ∧ s'.cwd = s.cwd)
    (fun fd s1 _ _ h1 => ?_) ⟨h, rfl⟩) ?_
  · rw [wp_bind, wp_get]
    cases s1.ofile p fd with
    | none => exact h1
    | some f =>
      simp only [wp_bind, withFiles, wp_zoom, wp_modify]
      exact wp_conseq h1.1.fileclose fun _ s2 h2 =>
        ⟨h2.1.descriptors rfl, h2.2.cwd.trans h1.2⟩
  · rintro - s1 ⟨h1, hcwd⟩
    have hp1 : s1.cwd p = some d := by rw [hcwd, hp]
    rw [wp_bind, wp_get, hp1]
    simp only [wp_bind, wp_iput, wp_modify, wp_pure]
    have hleft := (h1.leave hp1).put
    rwa [Fs.put_setCwd] at hleft

end CowPaging
