import CowPaging.InodeRefs

/-!
# What the calls on names keep

Every call leaves a tree of directories with exact link counts and right references, or
stops in one of the panics of `Stops`. With `strict` there are no directories that have
been unlinked; path lookup then finds an allocated inode behind every name. Without it
a call may start in a directory that has been unlinked, whose `..` may lead nowhere.
-/

namespace CowPaging

open Bytes StateExcept SlotTable Tally
open Function (update_of_ne update_self update_idem update_comm update)

/-- No directory has been unlinked and is still there. -/
def NoneUnlinked (t : Table) : Prop := ∀ d, (t d).type = .dir → (t d).nlink ≠ 0

/-- The file system while the call holds the references `held`. -/
structure FsInv (strict : Bool) (held : List Nat) (s : Fs) : Prop where
  refs : RefInv held s
  tree : TreeInv s.inode
  linked : strict = true → NoneUnlinked s.inode

/-- The panics that are left: tables that are full, counts of open files, and the lookup that
    leaves a directory that has been unlinked. -/
def Stops (strict : Bool) (e : Halt) : Prop :=
  e = .panic .igetNoInodes ∨ e = .panic .iallocNoInodes ∨ e = .panic .dirlink ∨
    e = .panic .filedup ∨ e = .panic .fileclose ∨ (strict = false ∧ e = .panic .ilockNoType)

variable {strict : Bool} {s s' : Fs} {t t' : Table} {held : List Nat} {i d dp a off p : Nat}
  {name path : Str} {ty : InodeType}

theorem stops_iget : Stops strict (.panic .igetNoInodes) := .inl rfl
theorem stops_ialloc : Stops strict (.panic .iallocNoInodes) := .inr (.inl rfl)
theorem stops_dirlink : Stops strict (.panic .dirlink) := .inr (.inr (.inl rfl))

/-! ### Inodes that lookup stays within -/

/-- The inode is allocated and, if it is a directory, has not been unlinked. -/
def Good (t : Table) (i : Nat) : Prop :=
  (t i).type ≠ .free ∧ ((t i).type = .dir → (t i).nlink ≠ 0)

theorem good_of_live (h : (t i).Live) : Good t i := ⟨by rw [h.1]; simp, fun _ => h.2⟩

theorem Good.live (h : Good t i) (hdir : (t i).type = .dir) : (t i).Live := ⟨hdir, h.2 hdir⟩

theorem lookup_eq_some (h : lookup t d name = some i) : (t d).type = .dir ∧
    ∃ off, findDirent name (t d).entries = some (i, off) := by
  rw [lookup] at h
  split at h
  · simp_all
  · exact (Option.some_ne_none i h.symm).elim

theorem TreeInv.closed (h : TreeInv t) : Closed t (Good t) where
  alloc i hi := hi.1
  lookup d name i hd hl := by
    obtain ⟨hdir, off, hfind⟩ := lookup_eq_some hl
    obtain ⟨hi, hoff⟩ := findDirent_some hfind
    have hshape := h.shape d hdir
    rw [hshape.entries] at hoff
    match off, hoff with
    | 0, hoff => grind
    | 1, hoff => grind [good_of_live, h.up_live, hd.live]
    | k + 2, hoff =>
      have hk : (t d).names[k]? = some ⟨name, i⟩ := hoff
      obtain ⟨-, halloc, -, -, hlive⟩ := h.linked hdir hk hi
      exact ⟨halloc, fun hd => (hlive hd).1.2⟩

theorem FsInv.origin_dir (h : FsInv strict held s) (hd : s.origin p path = some d) :
    (s.inode d).type = .dir := by
  rw [Fs.origin] at hd
  split at hd
  · rw [← Option.some.inj hd]
    exact h.tree.root.1.1
  · exact (h.refs.cwds p d hd).2

theorem FsInv.origin_good (h : FsInv strict held s) (hd : s.origin p path = some d) :
    Good s.inode d ∨ Stops strict (.panic .ilockNoType) := by
  have hdir := h.origin_dir hd
  cases strict with
  | true => exact .inl (good_of_live ⟨hdir, h.linked rfl d hdir⟩)
  | false => exact .inr (by simp [Stops])

/-! ### Steps -/

theorem FsInv.same {held' : List Nat} (h : FsInv strict held s) (hsame : SameNames s s')
    (hrefs : RefInv held' s') : FsInv strict held' s' :=
  ⟨hrefs, by rw [hsame.inode]; exact h.tree, by rw [hsame.inode]; exact h.linked⟩

/-- `iput` drops the reference and frees the inode if it was the last one. -/
theorem FsInv.put (h : FsInv strict (i :: held) s) : FsInv strict held (s.put i) := by
  by_cases hlast : s.Last i
  · obtain ⟨halloc, -, hrefs⟩ := h.refs.free hlast
    have hself : (s.put i).inode i = (s.inode i).freed := by
      rw [Fs.put_of_last hlast]
      exact update_self _ _ _
    have hother : ∀ j, j ≠ i → (s.put i).inode j = s.inode j := by
      intro j hj
      rw [Fs.put_of_last hlast]
      exact update_of_ne hj _ _
    refine ⟨hrefs, h.tree.free hlast.2.1 halloc hself hother, fun hs d hdir => ?_⟩
    by_cases hd : d = i
    · subst hd
      rw [hself] at hdir
      cases hdir
    · rw [hother d hd] at hdir ⊢
      exact h.linked hs d hdir
  · obtain ⟨hsame, hrefs⟩ := h.refs.drop hlast
    exact h.same hsame hrefs

theorem Fs.put_inode_of_ne (s : Fs) (h : d ≠ i) : (s.put i).inode d = s.inode d := by
  unfold Fs.put
  split
  · exact update_of_ne h _ _
  · rfl

theorem FsInv.swap {a b : Nat} (h : FsInv strict (a :: b :: held) s) :
    FsInv strict (b :: a :: held) s := ⟨h.refs.swap, h.tree, h.linked⟩

/-- `dirlink` of a name that is not there. -/
theorem dirlink_new {E : Halt → Prop} (hdir : (s.inode dp).type = .dir)
    (hnone : findDirent name (s.inode dp).entries = none) (hE : E (.panic .dirlink)) :
    wp (dirlink dp name i) s (fun r s' => r = true ∧ s' = s.setInode dp fun ip =>
      { ip with entries := insertDirent ⟨name, i⟩ ip.entries }) E := by
  rw [dirlink, wp_bind, dirlookup, wp_bind, wp_get, if_neg (not_not.2 hdir), hnone]
  simp only [wp_pure, wp_bind, wp_get]
  exact wp_ite (fun _ => hE) fun _ => ⟨rfl, rfl⟩

/-! ### `create` -/

theorem RefInv.free_unused (h : RefInv held s) (hfree : (s.inode a).type = .free)
    (hheld : a ∉ held) : s.ref a = 0 := by
  have hfiles : tally NFILE (FileEntry.uses a) s.ftable = 0 := by
    refine tally_eq_zero.2 fun f _ => if_neg fun hc => ?_
    have halloc := (h.opened f hc.1).2.2
    rw [hc.2] at halloc
    exact halloc hfree
  have hcwd : tally NPROC (cwdUses a) s.cwd = 0 := by
    refine tally_eq_zero.2 fun q _ => if_neg fun hc => ?_
    have hdir := (h.cwds q a hc).2
    rw [hfree] at hdir
    cases hdir
  rw [h.refs, Fs.users, hfiles, hcwd, List.count_eq_zero_of_not_mem hheld]

/-- The new inode `a` is in the cache and reads `x`, the directory `dp` reads `y`. -/
structure Loaded (a dp : Nat) (x y : Inode) (s s' : Fs) : Prop where
  files : s'.toFiles = s.toFiles
  cwd : s'.cwd = s.cwd
  ref : s'.ref = update s.ref a 1
  valid : s'.valid = update s.valid a true
  self : s'.inode a = x
  parent : s'.inode dp = y
  other : ∀ i, i ≠ a → i ≠ dp → s'.inode i = s.inode i

variable {x y : Inode}

theorem Loaded.setSelf (m : Loaded a dp x y s s') (hne : dp ≠ a) (f : Inode → Inode) :
    Loaded a dp (f x) y s (s'.setInode a f) where
  files := m.files
  cwd := m.cwd
  ref := m.ref
  valid := m.valid
  self := by rw [Fs.setInode, m.self]; exact update_self _ _ _
  parent := (update_of_ne hne _ _).trans m.parent
  other i hi hidp := (update_of_ne hi _ _).trans (m.other i hi hidp)

theorem Loaded.setParent (m : Loaded a dp x y s s') (hne : dp ≠ a) (f : Inode → Inode) :
    Loaded a dp x (f y) s (s'.setInode dp f) where
  files := m.files
  cwd := m.cwd
  ref := m.ref
  valid := m.valid
  self := (update_of_ne hne.symm _ _).trans m.self
  parent := by rw [Fs.setInode, m.parent]; exact update_self _ _ _
  other i hi hidp := (update_of_ne hidp _ _).trans (m.other i hi hidp)

theorem Loaded.type (m : Loaded a dp x y s s') (hy : y.type = (s.inode dp).type) (hi : i ≠ a) :
    (s'.inode i).type = (s.inode i).type := by
  by_cases hidp : i = dp
  · subst hidp
    rw [m.parent, hy]
  · rw [m.other i hi hidp]

theorem Loaded.users (m : Loaded a dp x y s s') (i : Nat) : s'.users i = s.users i := by
  rw [Fs.users, Fs.users, m.files, m.cwd]

/-- `create` made the inode `a` in `dp`. -/
abbrev Made (ty : InodeType) (name : Str) (a dp : Nat) (s s' : Fs) : Prop :=
  Loaded a dp (Inode.made ty a dp)
    ((s.inode dp).insert (linksAfterCreate ty (s.inode dp).nlink) ⟨name, a⟩) s s'

theorem FsInv.made (h : FsInv strict held s) (m : Made ty name a dp s s') (hheld : a ∉ held)
    (hdp : (s.inode dp).Live) (hrange : 1 ≤ a ∧ a < NINODES) (hfree : (s.inode a).type = .free)
    (hty : ty ≠ .free) (hname : name ≠ dot ∧ name ≠ dotdot) : FsInv strict (a :: held) s' := by
  have htree := h.tree.create hdp hrange hfree hty hname m.self m.parent m.other
  have href := h.refs.free_unused hfree hheld
  have hne : dp ≠ a := by
    rintro rfl
    rw [hdp.1] at hfree
    cases hfree
  have hself : (s'.inode a).type = ty ∧ (s'.inode a).nlink ≠ 0 := by
    rw [m.self]
    exact ⟨rfl, show (1 : BitVec 16) ≠ 0 by decide⟩
  -- the parent had a name in the tree before and has it now
  have hparent : (s'.inode dp).nlink ≠ 0 := by
    intro hzero
    have hdir : (s'.inode dp).type = .dir := by rw [m.type rfl hne]; exact hdp.1
    have hde : (⟨name, a⟩ : Dirent) ∈ (s'.inode dp).names := by
      rw [m.parent, (h.tree.shape dp hdp.1).insert_names]
      exact mem_insertDirent_self
    have hi := htree.dead dp hdir hzero _ hde
    simp only at hi
    omega
  have hnlink : ∀ i, i ≠ a → (s'.inode i).nlink = 0 → (s.inode i).nlink = 0 := by
    intro i hi hz
    by_cases hidp : i = dp
    · subst hidp
      exact (hparent hz).elim
    · rwa [m.other i hi hidp] at hz
  refine ⟨⟨fun i => ?_, fun i halloc hz => ?_, fun i hf hv => ?_, fun f hf => ?_, fun q d hq => ?_⟩,
    htree, fun hs d hdir => ?_⟩
  · rw [m.users, m.ref, count_cons_self_or]
    by_cases hi : i = a
    · subst hi
      have hrefs := h.refs.refs i
      rw [update_self, if_pos rfl]
      omega
    · rw [update_of_ne hi, if_neg hi]
      exact h.refs.refs i
  · have hi : i ≠ a := by
      rintro rfl
      exact hself.2 hz
    rw [m.type rfl hi] at halloc
    rw [m.valid, m.ref, update_of_ne hi, update_of_ne hi]
    exact h.refs.orphan i halloc (hnlink i hi hz)
  · have hi : i ≠ a := by
      rintro rfl
      rw [hself.1] at hf
      exact hty hf
    rw [m.type rfl hi] at hf
    rw [m.valid, update_of_ne hi] at hv
    rw [m.ref, update_of_ne hi]
    exact h.refs.unread i hf hv
  · rw [m.files] at hf ⊢
    obtain ⟨hlt, hpos, halloc⟩ := h.refs.opened f hf
    have hi : (s.ftable f).ip ≠ a := by
      intro heq
      rw [heq] at halloc
      exact halloc hfree
    rw [m.type rfl hi]
    exact ⟨hlt, hpos, halloc⟩
  · rw [m.cwd] at hq
    obtain ⟨hlt, hdir⟩ := h.refs.cwds q d hq
    have hi : d ≠ a := by
      rintro rfl
      rw [hdir] at hfree
      cases hfree
    rw [m.type rfl hi]
    exact ⟨hlt, hdir⟩
  · by_cases hi : d = a
    · subst hi
      exact hself.2
    · intro hz
      rw [m.type rfl hi] at hdir
      exact h.linked hs d hdir (hnlink d hi hz)

/-- An entry that is missing in a directory is neither `.` nor `..`. -/
theorem Shaped.not_dots {ip : Inode} (h : Shaped d ip) (hnone : findDirent name ip.entries = none) :
    name ≠ dot ∧ name ≠ dotdot := by
  have hself : (⟨dot, d⟩ : Dirent) ∈ ip.entries := by
    rw [h.entries]
    exact List.mem_cons_self
  have hup : (⟨dotdot, ip.up⟩ : Dirent) ∈ ip.entries := by
    rw [h.entries]
    exact List.mem_cons_of_mem _ List.mem_cons_self
  have hd : d ≠ 0 := Nat.one_le_iff_ne_zero.1 h.self_pos
  have hu : ip.up ≠ 0 := Nat.one_le_iff_ne_zero.1 h.up_pos
  exact ⟨(findDirent_none hnone hself hd).symm, (findDirent_none hnone hup hu).symm⟩

theorem ialloc_spec (h : RefInv held s) (hheld : ∀ i ∈ held, (s.inode i).type ≠ .free) :
    wp (ialloc ty) s (fun a s' => (1 ≤ a ∧ a < NINODES) ∧ (s.inode a).type = .free ∧ a ∉ held ∧
      s' = ((s.setInode a fun _ => { type := ty, nlink := 0, entries := [] }).setRef a 1).setValid
        a false) (Stops strict) := by
  rw [ialloc, wp_bind, wp_get]
  cases hslot : firstSlot NINODES fun i => decide (i ≠ 0 ∧ (s.inode i).type = .free) with
  | none => exact stops_ialloc
  | some a =>
    obtain ⟨hlt, htest⟩ := firstSlot_some hslot
    obtain ⟨hpos, hfree⟩ := of_decide_eq_true htest
    have hout : a ∉ held := fun hmem => hheld a hmem hfree
    have href := h.free_unused hfree hout
    rw [wp_bind, wp_set, iget, wp_bind, wp_get]
    refine wp_ite (fun hc => ?_) fun _ => wp_ite (fun _ => stops_iget) fun _ => ?_
    · have hzero : 0 < s.ref a := hc
      omega
    · exact ⟨⟨Nat.one_le_iff_ne_zero.2 hpos, hlt⟩, hfree, hout, rfl⟩

theorem loaded_new (hne : dp ≠ a) (hty : ty ≠ .free) {E : Halt → Prop}
    (hs : s' = ((s.setInode a fun _ => { type := ty, nlink := 0, entries := [] }).setRef a 1).setValid
      a false) :
    wp (ilock a) s' (fun _ s'' => Loaded a dp { type := ty, nlink := 0, entries := [] }
      (s.inode dp) s s'') E := by
  subst hs
  have hself : update s.inode a { type := ty, nlink := 0, entries := [] } a =
      { type := ty, nlink := 0, entries := [] } := update_self _ _ _
  rw [ilock, wp_bind, wp_get]
  refine wp_ite (fun hc => ?_) fun _ => wp_ite (fun hc => ?_) fun _ => wp_ite (fun hc => ?_) fun _ => ?_
  · simp [Fs.setValid, Fs.setRef] at hc
  · simp [Fs.setValid] at hc
  · simp only [Fs.setValid, Fs.setRef, Fs.setInode, update_self] at hc
    exact (hty hc).elim
  · rw [wp_set]
    refine ⟨rfl, rfl, rfl, ?_, hself, update_of_ne hne _ _, fun i hi _ =>
      update_of_ne hi _ _⟩
    simp [Fs.setValid, Fs.setRef, Fs.setInode]

theorem FsInv.createNew (h : FsInv strict [dp] s) (hdp : (s.inode dp).Live) (hty : ty ≠ .free)
    (hnone : findDirent name (s.inode dp).entries = none) :
    wp (createNew dp name ty) s (fun r s' => ∃ a, r = some a ∧ FsInv strict [a] s' ∧
      (s'.inode a).type ≠ .free) (Stops strict) := by
  have halloc : (s.inode dp).type ≠ .free := by rw [hdp.1]; simp
  have hname := (h.tree.shape dp hdp.1).not_dots hnone
  rw [CowPaging.createNew, wp_bind]
  refine wp_conseq (ialloc_spec h.refs (by simpa using halloc)) ?_
  rintro a s1 ⟨hrange, hfree, hheld, hs1⟩
  have hne : dp ≠ a := by
    rintro rfl
    exact halloc hfree
  rw [wp_bind]
  refine wp_conseq (loaded_new hne hty hs1) fun _ s2 m2 => ?_
  rw [wp_bind, wp_modify]
  have m3 := m2.setSelf hne fun i => { i with nlink := 1 }
  -- the last step: the name in `dp`
  have hlast : ∀ s4, Loaded a dp (Inode.made ty a dp)
      ((s.inode dp).setNlink (linksAfterCreate ty (s.inode dp).nlink)) s s4 →
      wp (do
        if !(← dirlink dp name a) then throw (.panic .createDirlink)
        else do
          iput dp
          pure (some a)) s4 (fun r s' => ∃ a, r = some a ∧ FsInv strict [a] s' ∧
            (s'.inode a).type ≠ .free) (Stops strict) := by
    intro s4 m4
    rw [wp_bind]
    refine wp_conseq (dirlink_new (by rw [m4.parent]; exact hdp.1) (by rw [m4.parent]; exact hnone)
      stops_dirlink) ?_
    rintro _ s5 ⟨rfl, rfl⟩
    have m5 := m4.setParent hne fun ip => { ip with entries := insertDirent ⟨name, a⟩ ip.entries }
    have h5 := h.made m5 hheld hdp hrange hfree hty hname
    simp only [Bool.not_true, Bool.false_eq_true, if_false, wp_bind, wp_iput, wp_pure]
    refine ⟨a, rfl, h5.swap.put, ?_⟩
    rw [Fs.put_inode_of_ne _ hne.symm, m5.self]
    exact hty
  dsimp only at m3 ⊢
  by_cases hdir : ty = .dir
  · subst hdir
    rw [if_pos rfl, wp_bind, wp_modify]
    have m4 := m3.setParent hne fun d => { d with nlink := d.nlink + 1 }
    rw [wp_bind]
    refine wp_conseq (dirlink_new (by rw [m4.self]) (by rw [m4.self]; rfl) stops_dirlink) ?_
    rintro _ s5 ⟨rfl, rfl⟩
    have m5 := m4.setSelf hne fun ip => { ip with entries := insertDirent ⟨dot, a⟩ ip.entries }
    simp only [Bool.not_true, Bool.false_eq_true, if_false]
    have hfind : findDirent dotdot (insertDirent ⟨dot, a⟩ []) = none := by
      simp [findDirent, insertDirent, dot_ne_dotdot]
    rw [wp_bind]
    refine wp_conseq (dirlink_new (by rw [m5.self]) (by rw [m5.self]; exact hfind) stops_dirlink) ?_
    rintro _ s6 ⟨rfl, rfl⟩
    have m6 := m5.setSelf hne fun ip =>
      { ip with entries := insertDirent ⟨dotdot, dp⟩ ip.entries }
    have hdots : insertDirent ⟨dotdot, dp⟩ (insertDirent ⟨dot, a⟩ []) =
        [⟨dot, a⟩, ⟨dotdot, dp⟩] :=
      insertDirent_cons (x := ⟨dot, a⟩) (l := []) (Nat.one_le_iff_ne_zero.1 hrange.1)
    simp only [hdots] at m6
    simp only [Bool.not_true, Bool.false_eq_true, if_false]
    exact hlast _ m6
  · rw [if_neg hdir]
    refine hlast _ ?_
    rw [linksAfterCreate, if_neg hdir, Inode.made, if_neg hdir]
    exact m3

/-- The name is in the directory, or `createNew` makes it. -/
theorem FsInv.create (h : FsInv strict [] s) (hd : s.origin p path = some d)
    (hlive : (s.inode d).nlink ≠ 0) (hty : ty ≠ .free) :
    wp (create p path ty) s (fun r s' => FsInv strict r.toList s' ∧
      ∀ a, r = some a → (s'.inode a).type ≠ .free) (Stops strict) := by
  have hgood := good_of_live ⟨h.origin_dir hd, hlive⟩
  have hclosed := h.tree.closed
  have hk := h.refs.orphansUsed
  rw [CowPaging.create, wp_bind, nameiparent]
  refine wp_conseq (namex_spec hk h.refs hclosed stops_iget hd (.inl hgood)) ?_
  rintro r s1 ⟨hr, hsame1, h1⟩
  cases r with
  | none => exact ⟨h.same hsame1 h1, fun a ha => (Option.some_ne_none a ha.symm).elim⟩
  | some r =>
    obtain ⟨dp, name⟩ := r
    have hdir : (s.inode dp).type = .dir := walkNames_parent_dir hr.symm
    have hgooddp : Good s.inode dp := hclosed.walkNames hgood hr.symm
    simp only [wp_bind]
    refine wp_conseq (h1.ilock List.mem_cons_self (.inl (by rw [hsame1.inode]; exact hgooddp.1))) ?_
    rintro - s2 ⟨hsame2, h2, -, -⟩
    have hinode2 : s2.inode = s.inode := hsame2.inode.trans hsame1.inode
    refine wp_conseq (h2.dirlookup (by rw [hinode2]; exact hdir) stops_iget) ?_
    rintro r s3 ⟨hfind, hsame3, h3⟩
    rw [hinode2] at hfind
    have hsame := (hsame1.trans hsame2).trans hsame3
    cases r with
    | none =>
      have h3' : FsInv strict [dp] s3 := h.same hsame h3
      have hlive3 : (s3.inode dp).Live := by rw [hsame.inode]; exact hgooddp.live hdir
      refine wp_conseq (h3'.createNew hlive3 hty (by rw [hsame.inode]; exact hfind.symm)) ?_
      rintro r s4 ⟨a, rfl, h4, halloc⟩
      exact ⟨h4, fun b hb => by rw [← Option.some.inj hb]; exact halloc⟩
    | some r =>
      obtain ⟨ip, off⟩ := r
      have hl : lookup s.inode dp name = some ip := by
        rw [lookup, if_pos hdir, ← hfind]
        rfl
      have hgoodip := hclosed.lookup dp name ip hgooddp hl
      obtain ⟨hsame4, h4⟩ := h3.swap.drop_used (hsame.orphansUsed hk)
      have hsame' := hsame.trans hsame4
      simp only [wp_bind, wp_iput]
      refine wp_conseq (h4.ilock List.mem_cons_self
        (.inl (by rw [hsame'.inode]; exact hgoodip.1))) ?_
      rintro - s5 ⟨hsame5, h5, -, -⟩
      have hall := h.same (hsame'.trans hsame5) h5
      rw [wp_get]
      refine wp_ite (fun hfile => ?_) fun _ => ?_
      · simp_all
      · simp only [wp_bind, wp_iput, wp_pure]
        exact ⟨hall.put, fun b hb => (Option.some_ne_none b hb.symm).elim⟩

/-! ### The table while types stay -/

/-- The links and entries of inodes change. An inode that loses its last link is in the
    cache. -/
theorem RefInv.table (h : RefInv held s) (hfiles : s'.toFiles = s.toFiles) (hcwd : s'.cwd = s.cwd)
    (href : s'.ref = s.ref) (hvalid : s'.valid = s.valid)
    (htype : ∀ i, (s'.inode i).type = (s.inode i).type)
    (hnlink : ∀ i, (s'.inode i).nlink = 0 → (s.inode i).nlink = 0 ∨ (s.valid i = true ∧ 0 < s.ref i)) :
    RefInv held s' where
  refs i := by rw [href, Fs.users, hfiles, hcwd]; exact h.refs i
  orphan i halloc hz := by
    rw [htype] at halloc
    rw [hvalid, href]
    exact (hnlink i hz).elim (h.orphan i halloc) id
  unread i hf hv := by
    rw [htype] at hf
    rw [hvalid] at hv
    rw [href]
    exact h.unread i hf hv
  opened f hf := by
    rw [hfiles] at hf ⊢
    rw [htype]
    exact h.opened f hf
  cwds q d hq := by
    rw [hcwd] at hq
    rw [htype]
    exact h.cwds q d hq

theorem Fs.setInode_self (s : Fs) (f : Inode → Inode) : (s.setInode i f).inode i = f (s.inode i) :=
  update_self _ _ _

theorem Fs.setInode_of_ne (s : Fs) (f : Inode → Inode) (h : d ≠ i) :
    (s.setInode i f).inode d = s.inode d := update_of_ne h _ _

/-! ### `link` -/

/-- The state in which `link` looks for the new name: the file `a` has one link more. -/
structure Linking (a : Nat) (s s' : Fs) : Prop where
  files : s'.toFiles = s.toFiles
  cwd : s'.cwd = s.cwd
  self : s'.inode a = (s.inode a).setNlink ((s.inode a).nlink + 1)
  other : ∀ i, i ≠ a → s'.inode i = s.inode i

theorem Linking.same (l : Linking a s s') {s'' : Fs} (h : SameNames s' s'') : Linking a s s'' where
  files := h.files.trans l.files
  cwd := h.cwd.trans l.cwd
  self := by rw [h.inode]; exact l.self
  other i hi := by rw [h.inode]; exact l.other i hi

theorem Linking.read (l : Linking a s s') (i : Nat) :
    (s'.inode i).type = (s.inode i).type ∧ (s'.inode i).entries = (s.inode i).entries := by
  by_cases hi : i = a
  · subst hi
    rw [l.self]
    exact ⟨rfl, rfl⟩
  · rw [l.other i hi]
    exact ⟨rfl, rfl⟩

theorem Linking.closed (l : Linking a s s') (h : TreeInv s.inode) : Closed s'.inode (Good s.inode) where
  alloc i hi := by rw [(l.read i).1]; exact hi.1
  lookup d name i hd hl := by
    refine h.closed.lookup d name i hd ?_
    rwa [lookup, (l.read d).1, (l.read d).2] at hl

/-- The error path of `link` takes the count back. -/
theorem FsInv.linkBad (h : FsInv strict [] s) (l : Linking a s s') (hrefs : RefInv [a] s')
    (halloc : (s.inode a).type ≠ .free) :
    wp (linkBad a) s' (fun _ s'' => FsInv strict [] s'') (Stops strict) := by
  rw [CowPaging.linkBad, wp_bind]
  refine wp_conseq (hrefs.ilock List.mem_cons_self (.inl (by rw [(l.read a).1]; exact halloc))) ?_
  rintro - s1 ⟨hsame, h1, hvalid, -⟩
  have l1 := l.same hsame
  rw [wp_bind, wp_modify, wp_bind, wp_iput, wp_pure]
  have hback : (s1.setInode a fun i => { i with nlink := i.nlink - 1 }).inode = s.inode := by
    funext i
    by_cases hi : i = a
    · subst hi
      rw [Fs.setInode_self, l1.self]
      show ({ s.inode i with nlink := (s.inode i).nlink + 1 - 1 } : Inode) = s.inode i
      rw [BitVec.add_sub_cancel]
    · rw [Fs.setInode_of_ne _ _ hi, l1.other i hi]
  have h2 : RefInv [a] (s1.setInode a fun i => { i with nlink := i.nlink - 1 }) := by
    refine h1.table rfl rfl rfl rfl (fun i => ?_) fun i hz => ?_
    · rw [hback, (l1.read i).1]
    · rw [hback] at hz
      by_cases hi : i = a
      · subst hi
        exact .inr ⟨hvalid, h1.ref_pos List.mem_cons_self⟩
      · rw [l1.other i hi]
        exact .inl hz
  exact FsInv.put ⟨h2, by rw [hback]; exact h.tree, by rw [hback]; exact h.linked⟩

theorem FsInv.linkNew {new : Str} (h : FsInv strict [] s) (l : Linking a s s') (hrefs : RefInv [a] s')
    (halloc : (s.inode a).type ≠ .free) (hfile : (s.inode a).type ≠ .dir)
    (hmany : (s.inode a).nlink.toNat + 1 < 2 ^ 15)
    (hd : s.origin p new = some d) (hlive : (s.inode d).nlink ≠ 0) :
    wp (linkNew p a new) s' (fun _ s'' => FsInv strict [] s'') (Stops strict) := by
  have hclosed := l.closed h.tree
  have hgood := good_of_live ⟨h.origin_dir hd, hlive⟩
  have hd' : s'.origin p new = some d := by
    rw [Fs.origin, l.cwd]
    exact hd
  have hk : OrphansUsed s' := by
    intro i hi hz
    by_cases hia : i = a
    · subst hia
      rw [l.self] at hz
      have hsucc : ((s.inode i).nlink + 1).toNat = (s.inode i).nlink.toNat + 1 := nlink_succ (by omega)
      have hz' : (s.inode i).nlink + 1 = 0 := hz
      rw [hz'] at hsucc
      simp at hsucc
    · rw [l.other i hia] at hi hz
      rw [Fs.users, l.files, l.cwd]
      exact h.refs.orphansUsed i hi hz
  rw [CowPaging.linkNew, wp_bind, nameiparent]
  refine wp_conseq (namex_spec hk hrefs hclosed stops_iget hd' (.inl hgood)) ?_
  rintro r s1 ⟨hr, hsame1, h1⟩
  cases r with
  | none => exact h.linkBad (l.same hsame1) h1 halloc
  | some r =>
    obtain ⟨dp, name⟩ := r
    have hdir : (s'.inode dp).type = .dir := walkNames_parent_dir hr.symm
    have hdir0 : (s.inode dp).type = .dir := by rw [← (l.read dp).1]; exact hdir
    have hgooddp : Good s.inode dp := hclosed.walkNames hgood hr.symm
    have hne : dp ≠ a := by
      rintro rfl
      exact hfile hdir0
    simp only [wp_bind]
    refine wp_conseq (h1.ilock List.mem_cons_self
      (.inl (by rw [hsame1.inode, (l.read dp).1]; exact hgooddp.1))) ?_
    rintro - s2 ⟨hsame2, h2, -, -⟩
    have hsame := hsame1.trans hsame2
    have l2 := l.same hsame
    rw [dirlink, wp_bind]
    refine wp_conseq (h2.dirlookup (by rw [hsame.inode]; exact hdir) stops_iget) ?_
    rintro r s3 ⟨hfind, hsame3, h3⟩
    have l3 := l2.same hsame3
    rw [(l2.read dp).2] at hfind
    cases r with
    | some r =>
      -- the name is taken
      obtain ⟨i, off⟩ := r
      have hk3 := (hsame.trans hsame3).orphansUsed hk
      obtain ⟨hsame4, h4⟩ := h3.drop_used hk3
      obtain ⟨hsame5, h5⟩ := h4.drop_used (hsame4.orphansUsed hk3)
      simp only [wp_bind, wp_iput, wp_pure, Bool.false_eq_true, if_false]
      exact h.linkBad ((l3.same hsame4).same hsame5) h5 halloc
    | none =>
      have hname := (h.tree.shape dp hdir0).not_dots hfind.symm
      rw [wp_bind, wp_get]
      refine wp_ite (fun _ => stops_dirlink) fun _ => ?_
      simp only [wp_bind, wp_set, wp_pure, if_true, wp_iput]
      obtain ⟨s4, hs4⟩ : ∃ s4, s4 = s3.setInode dp fun ip =>
        { ip with entries := insertDirent ⟨name, a⟩ (s3.inode dp).entries } := ⟨_, rfl⟩
      have hself : s4.inode a = (s.inode a).setNlink ((s.inode a).nlink + 1) := by
        rw [hs4, Fs.setInode_of_ne _ _ hne.symm, l3.self]
      have hparent : s4.inode dp = (s.inode dp).insert (s.inode dp).nlink ⟨name, a⟩ := by
        rw [hs4, Fs.setInode_self, l3.other dp hne]
        rfl
      have hother : ∀ i, i ≠ a → i ≠ dp → s4.inode i = s.inode i := by
        intro i hi hidp
        rw [hs4, Fs.setInode_of_ne _ _ hidp, l3.other i hi]
      have htree := h.tree.link (hgooddp.live hdir0) halloc hfile hname hmany hself hparent hother
      have h4 : RefInv [dp, a] s4 := by
        refine h3.table (by rw [hs4]; rfl) (by rw [hs4]; rfl) (by rw [hs4]; rfl) (by rw [hs4]; rfl)
          (fun i => ?_) fun i hz => .inl ?_
        · by_cases hidp : i = dp
          · subst hidp
            rw [hs4, Fs.setInode_self]
          · rw [hs4, Fs.setInode_of_ne _ _ hidp]
        · by_cases hidp : i = dp
          · subst hidp
            rw [hs4, Fs.setInode_self] at hz
            exact hz
          · rwa [hs4, Fs.setInode_of_ne _ _ hidp] at hz
      rw [← hs4]
      refine FsInv.put (FsInv.put ⟨h4, htree, fun hs e he => ?_⟩)
      by_cases hea : e = a
      · subst hea
        rw [hself] at he
        exact (hfile he).elim
      · by_cases hedp : e = dp
        · subst hedp
          rw [hparent]
          exact hgooddp.2 hdir0
        · rw [hother e hea hedp] at he ⊢
          exact h.linked hs e he

/-- The inode that a path names. -/
def Fs.resolve (s : Fs) (p : Nat) (path : Str) : Option Nat :=
  (s.origin p path).bind fun d => (walkNames s.inode false d (pathElems path.length path)).map Prod.fst

theorem FsInv.namei (h : FsInv strict [] s) (hd : s.origin p path = some d) :
    wp (namei p path) s (fun r s' => r = s.resolve p path ∧ SameNames s s' ∧
      RefInv r.toList s' ∧ ∀ i, r = some i →
        ((s.inode i).type ≠ .free ∨ Stops strict (.panic .ilockNoType))) (Stops strict) := by
  have hgood := h.origin_good hd
  rw [CowPaging.namei, wp_bind]
  refine wp_conseq (namex_spec h.refs.orphansUsed h.refs h.tree.closed stops_iget hd hgood) ?_
  rintro r s1 ⟨hr, hsame, h1⟩
  rw [wp_pure, Fs.resolve, hd, Option.bind_some, ← hr]
  refine ⟨rfl, hsame, ?_, fun i hi => ?_⟩
  · cases r with
    | none => exact h1
    | some r => exact h1
  · obtain ⟨r, hr', rfl⟩ := Option.map_eq_some_iff.1 hi
    rw [hr'] at hr
    exact hgood.imp_left fun hg => (h.tree.closed.walkNames hg hr.symm).1

theorem FsInv.link {old new : Str} {e : Nat} (h : FsInv strict [] s) (hold : s.origin p old = some e)
    (hd : s.origin p new = some d) (hlive : (s.inode d).nlink ≠ 0)
    (hmany : ∀ i, s.resolve p old = some i → (s.inode i).nlink.toNat + 1 < 2 ^ 15) :
    wp (sysLink p old new) s (fun _ s' => FsInv strict [] s') (Stops strict) := by
  rw [sysLink, wp_bind]
  refine wp_conseq (h.namei hold) ?_
  rintro r s1 ⟨hr, hsame1, h1, halloc⟩
  cases r with
  | none => exact h.same hsame1 h1
  | some a =>
    simp only [wp_bind]
    refine wp_conseq (h1.ilock List.mem_cons_self
      (by rw [hsame1.inode]; exact halloc a rfl)) ?_
    rintro - s2 ⟨hsame2, h2, -, halloc2⟩
    rw [hsame1.inode] at halloc2
    have hsame := hsame1.trans hsame2
    rw [wp_get, hsame.inode]
    refine wp_ite (fun _ => ?_) fun hfile => ?_
    · simp only [wp_bind, wp_iput, wp_pure]
      exact (h.same hsame h2).put
    · have h0 := hmany a hr.symm
      have hsucc : ((s.inode a).nlink + 1).toNat = (s.inode a).nlink.toNat + 1 :=
        nlink_succ (by omega)
      rw [wp_bind, wp_set]
      have l : Linking a s (s2.setInode a fun i => { i with nlink := i.nlink + 1 }) := by
        refine ⟨hsame.files, hsame.cwd, ?_, fun i hi => ?_⟩
        · rw [Fs.setInode_self, hsame.inode]
          rfl
        · rw [Fs.setInode_of_ne _ _ hi, hsame.inode]
      refine h.linkNew l ?_ halloc2 hfile h0 hd hlive
      refine h2.table rfl rfl rfl rfl (fun i => ?_) fun i hz => .inl ?_
      · rw [(l.read i).1, hsame.inode]
      · by_cases hi : i = a
        · subst hi
          rw [l.self] at hz
          have hz' : (s.inode i).nlink + 1 = 0 := hz
          rw [hz'] at hsucc
          simp at hsucc
        · rwa [l.other i hi, ← hsame.inode] at hz

/-! ### `unlink` -/

theorem walkNames_last {elems : List Str} (h : walkNames t true d elems = some (dp, name)) :
    (walkNames t false d elems).map Prod.fst = lookup t dp name := by
  induction elems generalizing d with
  | nil => exact (Option.some_ne_none _ h.symm).elim
  | cons n rest ih =>
    rw [walkNames] at h ⊢
    by_cases hdir : (t d).type = .dir
    · rw [if_neg (not_not.2 hdir)] at h ⊢
      rw [if_neg fun hc => Bool.false_ne_true hc.1]
      by_cases hstop : rest = []
      · rw [if_pos ⟨rfl, hstop⟩] at h
        obtain ⟨rfl, rfl⟩ := Prod.mk.inj (Option.some.inj h)
        subst hstop
        cases lookup t d n with
        | none => rfl
        | some next => rfl
      · rw [if_neg fun hc => hstop hc.2] at h
        cases hl : lookup t d n with
        | none => grind
        | some next =>
          rw [hl] at h
          exact ih h
    · grind

theorem isdirempty_iff {ip : Inode} :
    isdirempty ip.entries = true ↔ ∀ de ∈ ip.names, de.inum = 0 := by
  simp only [isdirempty, List.all_eq_true, decide_eq_true_eq, Inode.names]

theorem one_le_toInt {n : BitVec 16} (hpos : 1 ≤ n.toNat) (hlt : n.toNat < 2 ^ 15) :
    ¬ n.toInt < 1 := by
  rw [BitVec.toInt_eq_toNat_of_lt (by omega)]
  omega

theorem Fs.setInode_setInode (s : Fs) (f g : Inode → Inode) :
    (s.setInode i f).setInode i g = s.setInode i fun ip => g (f ip) := by
  unfold Fs.setInode
  simp only [update_self, update_idem]

/-- `iput` and a change of another inode can be exchanged. -/
theorem Fs.put_setInode (s : Fs) (f : Inode → Inode) (h : a ≠ i) :
    (s.put i).setInode a f = (s.setInode a f).put i := by
  have hi : (s.setInode a f).inode i = s.inode i := Fs.setInode_of_ne s f h.symm
  have hiff : (s.setInode a f).Last i ↔ s.Last i := by
    unfold Fs.Last
    rw [hi]
    rfl
  by_cases hlast : s.Last i
  · rw [Fs.put_of_last hlast, Fs.put_of_last (hiff.2 hlast)]
    unfold Fs.setInode Fs.setValid Fs.setRef
    simp only [update_of_ne h, update_of_ne h.symm, update_comm h]
  · rw [Fs.put_of_not_last hlast, Fs.put_of_not_last (mt hiff.1 hlast)]
    rfl

theorem Fs.put_valid_of_ne (s : Fs) (h : d ≠ i) : (s.put i).valid d = s.valid d := by
  unfold Fs.put
  split
  · exact update_of_ne h _ _
  · rfl

/-- What is a directory after `iput` was not touched. -/
theorem Fs.put_dir (h : ((s.put i).inode d).type = .dir) : (s.put i).inode d = s.inode d := by
  by_cases hd : d = i
  · subst hd
    by_cases hlast : s.Last d
    · rw [Fs.put_of_last hlast] at h
      have hfree : ((s.setInode d Inode.freed).inode d).type = .dir := h
      rw [Fs.setInode_self] at hfree
      cases hfree
    · rw [Fs.put_of_not_last hlast]
      rfl
  · exact Fs.put_inode_of_ne s hd

/-- Unlinking the entry at `off` of `dp`. In the strict case a directory that is removed is
    not in use, so that it is freed at once. -/
theorem FsInv.unlinkEntry (h : FsInv strict [a, dp] s) (hdp : (s.inode dp).type = .dir)
    (hname : name ≠ dot ∧ name ≠ dotdot) (ha : a ≠ 0)
    (hoff : (s.inode dp).entries[off]? = some ⟨name, a⟩)
    (hunused : strict = true → (s.inode a).type = .dir → s.users a = 0) :
    wp (unlinkEntry dp a off) s (fun _ s' => FsInv strict [] s') (Stops strict) := by
  obtain ⟨k, rfl, hk⟩ := (h.tree.shape dp hdp).place hname hoff
  obtain ⟨-, halloc, -, hnamed, -⟩ := h.tree.linked hdp hk ha
  have hexact := h.tree.exact a halloc
  have hone := h.tree.nlink_pos halloc hnamed
  rw [CowPaging.unlinkEntry, wp_bind]
  refine wp_conseq (h.refs.ilock List.mem_cons_self (.inl halloc)) ?_
  rintro - s1 ⟨hsame, h1, hvalid, -⟩
  rw [wp_bind, wp_get, hsame.inode, if_neg (one_le_toInt hone (by omega))]
  refine wp_ite (fun _ => ?_) fun hempty => ?_
  · simp only [wp_bind, wp_iput, wp_pure]
    exact (h.same hsame h1).put.put
  have hempty' : (s.inode a).type = .dir → ∀ de ∈ (s.inode a).names, de.inum = 0 := by
    intro hdir
    rw [← isdirempty_iff]
    by_contra hno
    exact hempty ⟨hdir, Bool.eq_false_iff.2 hno⟩
  have hne : a ≠ dp := by
    rintro rfl
    exact ha (hempty' hdp _ (List.mem_of_getElem? hk))
  obtain ⟨-, hstays⟩ := h.tree.parent_stays hdp hk ha
  -- the state with both inodes changed, before the references are dropped
  obtain ⟨u, hu⟩ : ∃ u, u = (s1.setInode dp fun ip => ip.clear
      (linksAfterUnlink (s.inode a).type ip.nlink) (k + 2)).setInode a fun i =>
        { i with nlink := i.nlink - 1 } := ⟨_, rfl⟩
  have hself : u.inode a = (s.inode a).setNlink ((s.inode a).nlink - 1) := by
    rw [hu, Fs.setInode_self, Fs.setInode_of_ne _ _ hne, hsame.inode]
    rfl
  have hparent : u.inode dp =
      (s.inode dp).clear (linksAfterUnlink (s.inode a).type (s.inode dp).nlink) (k + 2) := by
    rw [hu, Fs.setInode_of_ne _ _ hne.symm, Fs.setInode_self, hsame.inode]
  have hother : ∀ i, i ≠ a → i ≠ dp → u.inode i = s.inode i := by
    intro i hi hidp
    rw [hu, Fs.setInode_of_ne _ _ hi, Fs.setInode_of_ne _ _ hidp, hsame.inode]
  have htype : ∀ i, (u.inode i).type = (s.inode i).type := by
    intro i
    by_cases hi : i = a
    · subst hi
      rw [hself]
      rfl
    · by_cases hidp : i = dp
      · subst hidp
        rw [hparent]
        rfl
      · rw [hother i hi hidp]
  have hlinked : ∀ i, i ≠ a → (u.inode i).nlink = 0 → (s.inode i).nlink = 0 := by
    intro i hi hz
    by_cases hidp : i = dp
    · subst hidp
      rw [hparent] at hz
      exact (hstays hz).elim
    · rwa [hother i hi hidp] at hz
  have hinv : FsInv false [a, dp] u := by
    refine ⟨?_, h.tree.unlink hdp hk ha hempty' hself hparent hother, fun hs => Bool.noConfusion hs⟩
    refine h1.table (by rw [hu]; rfl) (by rw [hu]; rfl) (by rw [hu]; rfl) (by rw [hu]; rfl)
      (fun i => by rw [htype, hsame.inode]) fun i hz => ?_
    by_cases hi : i = a
    · subst hi
      exact .inr ⟨hvalid, h1.ref_pos List.mem_cons_self⟩
    · rw [hsame.inode]
      exact .inl (hlinked i hi hz)
  have hfinal : FsInv strict [] ((u.put dp).put a) := by
    have hput := hinv.swap.put
    refine ⟨hput.put.refs, hput.put.tree, fun hs e hdir => ?_⟩
    have hkeep := Fs.put_dir hdir
    have hdir1 := hdir
    rw [hkeep] at hdir1
    have hkeep1 := Fs.put_dir hdir1
    have hdir0 := hdir1
    rw [hkeep1, htype] at hdir0
    by_cases hea : e = a
    · -- a directory was not in use, so it is gone
      subst hea
      obtain ⟨-, -, hroot, -, hlive⟩ := h.tree.linked hdp hk ha
      have hlink := (h.tree.last_link (hlive hdir0).1 hroot (hempty' hdir0)).1
      have hzero : (s.inode e).nlink - 1 = 0 := by
        by_contra hno
        have hpred := nlink_pred (n := (s.inode e).nlink) (by omega)
        have hpos := nlink_ne_zero.1 hno
        omega
      have husers : (u.put dp).users e = 0 := by
        rw [Fs.users, (u.put_files dp).1, (u.put_files dp).2, ← hunused hs hdir0, hu]
        exact hsame.users e
      have hlast : (u.put dp).Last e := by
        refine ⟨?_, ?_, ?_⟩
        · rw [Fs.put_valid_of_ne u hne, hu]
          exact hvalid
        · rw [hkeep1, hself]
          exact hzero
        · rw [hput.refs.refs, husers]
          simp
      rw [Fs.put_of_last hlast] at hdir
      have hfree : (((u.put dp).setInode e Inode.freed).inode e).type = .dir := hdir
      rw [Fs.setInode_self] at hfree
      cases hfree
    · intro hz
      rw [hkeep, hkeep1] at hz
      exact h.linked hs e hdir0 (hlinked e hea hz)
  rw [wp_bind, wp_modify]
  dsimp only
  by_cases hdir : (s.inode a).type = .dir
  · rw [if_pos hdir]
    simp only [wp_bind, wp_modify, wp_iput, wp_pure]
    rw [Fs.put_setInode _ _ hne, Fs.setInode_setInode]
    rw [hu] at hfinal
    simp only [linksAfterUnlink, if_pos hdir] at hfinal
    exact hfinal
  · rw [if_neg hdir]
    simp only [wp_bind, wp_modify, wp_iput, wp_pure]
    rw [Fs.put_setInode _ _ hne]
    rw [hu] at hfinal
    simp only [linksAfterUnlink, if_neg hdir] at hfinal
    exact hfinal

end CowPaging
