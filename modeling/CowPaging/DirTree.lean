import CowPaging.FileSystem
import CowPaging.Lib.Tally

/-!
# The tree of directories

What the inode table looks like when link counts are exact. Every directory starts with
`.` and `..`; its other entries are its names. A directory that has not been unlinked is
named exactly once, in the directory that its `..` names, and the root is named nowhere.
A directory that has been unlinked (`nlink` is 0) has no names left; its `..` counts for
nothing and may name an inode that is gone. The lemmas at the end say that making,
linking, unlinking and freeing an inode keep this.
-/

namespace CowPaging

open Bytes Tally

/-! ### Lists of entries -/

section

variable {name : Str} {l : List Dirent} {de x : Dirent} {i off : Nat}

theorem findDirent_some (h : findDirent name l = some (i, off)) :
    i ≠ 0 ∧ l[off]? = some ⟨name, i⟩ := by
  induction l generalizing off with
  | nil => cases h
  | cons de rest ih =>
    rw [findDirent] at h
    split at h
    · next hde =>
        cases h
        exact ⟨hde.1, by rw [← hde.2]; rfl⟩
    · obtain ⟨r, hr, heq⟩ := Option.map_eq_some_iff.1 h
      obtain ⟨rfl, rfl⟩ := Prod.mk.inj heq
      exact ih hr

theorem findDirent_none (h : findDirent name l = none) (hde : de ∈ l) (hi : de.inum ≠ 0) :
    de.name ≠ name := by
  induction l with
  | nil => exact (List.not_mem_nil hde).elim
  | cons x rest ih =>
    rw [findDirent] at h
    split at h
    · cases h
    · grind [Option.map_eq_none_iff.1]

theorem insertDirent_cons (hx : x.inum ≠ 0) :
    insertDirent de (x :: l) = x :: insertDirent de l := by
  rw [insertDirent, if_neg hx]

theorem mem_insertDirent (h : x ∈ insertDirent de l) : x = de ∨ x ∈ l := by
  induction l with
  | nil => exact .inl (List.mem_singleton.1 h)
  | cons y l ih => grind [insertDirent, List.mem_cons.1, List.mem_cons_of_mem]

theorem mem_insertDirent_self : de ∈ insertDirent de l := by
  induction l with
  | nil => exact List.mem_cons_self
  | cons y l ih =>
    rw [insertDirent]
    split
    · exact List.mem_cons_self
    · exact List.mem_cons_of_mem y ih

theorem countP_insertDirent (hi : i ≠ 0) :
    (insertDirent de l).countP (fun x => decide (x.inum = i)) =
      l.countP (fun x => decide (x.inum = i)) + if de.inum = i then 1 else 0 := by
  induction l with
  | nil => simp [insertDirent, List.countP_cons]
  | cons y l ih =>
    rw [insertDirent]
    split
    · grind
    · grind

theorem countP_clear (hi : i ≠ 0) (hx : l[off]? = some x) :
    (l.set off ⟨[], 0⟩).countP (fun y => decide (y.inum = i)) + (if x.inum = i then 1 else 0) =
      l.countP fun y => decide (y.inum = i) := by
  induction l generalizing off with
  | nil => exact (Option.some_ne_none x hx.symm).elim
  | cons y l ih =>
    cases off with
    | zero =>
      obtain rfl : y = x := Option.some.inj hx
      simp [List.countP_cons, Ne.symm hi]
    | succ off =>
      rw [List.set_cons_succ, List.countP_cons, List.countP_cons, ← ih hx]
      omega

end

/-! ### Directories -/

abbrev Table := Nat → Inode

/-- The inode named by `..`. -/
def Inode.up (ip : Inode) : Nat := ((ip.entries[1]?).map Dirent.inum).getD 0

/-- The entries after `.` and `..`. -/
def Inode.names (ip : Inode) : List Dirent := ip.entries.drop 2

/-- A directory that has not been unlinked. -/
def Inode.Live (ip : Inode) : Prop := ip.type = .dir ∧ ip.nlink ≠ 0

instance (ip : Inode) : Decidable ip.Live := inferInstanceAs (Decidable (_ ∧ _))

/-- The entry counts as a link to inode `i`, in a directory with this link count. -/
def Dirent.Links (de : Dirent) (nlink : BitVec 16) (i : Nat) : Prop :=
  de.inum = i ∧ de.name ≠ dot ∧ (de.name = dotdot → nlink ≠ 0)

instance (de : Dirent) (nlink : BitVec 16) (i : Nat) : Decidable (de.Links nlink i) :=
  inferInstanceAs (Decidable (_ ∧ _ ∧ _))

/-- The links to inode `i` in one directory. -/
def Inode.links (ip : Inode) (i : Nat) : Nat :=
  if ip.type = .dir then ip.entries.countP fun de => decide (de.Links ip.nlink i) else 0

/-- The directory entries that name inode `i`, without `.` and the `..` of directories that
    have been unlinked. -/
def links (t : Table) (i : Nat) : Nat := tally NINODES (fun ip => ip.links i) t

/-- Directory `d` starts with `.` and `..`, and no other entry has one of these names. -/
structure Shaped (d : Nat) (ip : Inode) : Prop where
  entries : ip.entries = ⟨dot, d⟩ :: ⟨dotdot, ip.up⟩ :: ip.names
  self_pos : 1 ≤ d
  up_pos : 1 ≤ ip.up
  names : ∀ de ∈ ip.names, de.inum ≠ 0 → de.name ≠ dot ∧ de.name ≠ dotdot

def Inode.nameCount (ip : Inode) (i : Nat) : Nat :=
  if ip.type = .dir then ip.names.countP fun de => decide (de.inum = i) else 0

def Inode.upCount (ip : Inode) (i : Nat) : Nat := if ip.Live ∧ ip.up = i then 1 else 0

/-- How often inode `i` is named. -/
def nameCount (t : Table) (i : Nat) : Nat := tally NINODES (fun ip => ip.nameCount i) t

/-- How many directories that have not been unlinked have inode `i` as their parent. -/
def upCount (t : Table) (i : Nat) : Nat := tally NINODES (fun ip => ip.upCount i) t

structure TreeInv (t : Table) : Prop where
  range : ∀ i, (t i).type ≠ .free → 1 ≤ i ∧ i < NINODES
  shape : ∀ d, (t d).type = .dir → Shaped d (t d)
  root : (t ROOTINO).Live ∧ (t ROOTINO).up = ROOTINO
  named : ∀ d de, (t d).type = .dir → de ∈ (t d).names → de.inum ≠ 0 →
    (t de.inum).type ≠ .free ∧ ((t de.inum).type = .dir → (t de.inum).up = d)
  once : ∀ i, (t i).type = .dir →
    nameCount t i = if i = ROOTINO ∨ (t i).nlink = 0 then 0 else 1
  dead : ∀ d, (t d).type = .dir → (t d).nlink = 0 → ∀ de ∈ (t d).names, de.inum = 0
  exact : ∀ i, (t i).type ≠ .free → (t i).nlink.toNat = links t i ∧ links t i < 2 ^ 15

variable {t : Table} {ip x : Inode} {d i dp off : Nat} {name : Str} {de : Dirent}

theorem dot_ne_dotdot : dot ≠ dotdot := by decide

theorem Shaped.links_eq (h : Shaped d ip) (hi : i ≠ 0) (hdir : ip.type = .dir) :
    ip.links i = ip.nameCount i + ip.upCount i := by
  have hnames : ip.names.countP (fun de => decide (de.Links ip.nlink i)) =
      ip.names.countP fun de => decide (de.inum = i) := by
    refine List.countP_congr fun de hde => ?_
    rw [decide_eq_true_eq, decide_eq_true_eq]
    refine ⟨fun hl => hl.1, fun heq => ?_⟩
    obtain ⟨hdot, hdotdot⟩ := h.names de hde (by rw [heq]; exact hi)
    exact ⟨heq, hdot, fun hd => (hdotdot hd).elim⟩
  rw [Inode.links, if_pos hdir, Inode.nameCount, if_pos hdir, h.entries, List.countP_cons,
    List.countP_cons, hnames]
  simp only [Dirent.Links, ne_eq, not_true_eq_false, false_and, and_false, decide_false,
    Bool.false_eq_true, if_false, decide_eq_true_eq, dot_ne_dotdot.symm, not_false_eq_true,
    true_and, forall_const, Inode.upCount, Inode.Live, hdir]
  by_cases hup : ip.up = i <;> by_cases hn : ip.nlink = 0 <;> simp [hup, hn]

theorem Inode.nameCount_of_not_dir (h : ip.type ≠ .dir) : ip.nameCount i = 0 := if_neg h

theorem Inode.upCount_of_not_live (h : ¬ ip.Live) : ip.upCount i = 0 := if_neg fun hl => h hl.1

theorem Inode.upCount_le : ip.upCount i ≤ 1 := by
  unfold Inode.upCount
  split <;> omega

theorem links_eq (hshape : ∀ d, (t d).type = .dir → Shaped d (t d)) (hi : i ≠ 0) :
    links t i = nameCount t i + upCount t i := by
  rw [links, nameCount, upCount, ← tally_add]
  refine tally_congr fun d _ => ?_
  by_cases hdir : (t d).type = .dir
  · exact (hshape d hdir).links_eq hi hdir
  · rw [Inode.links, if_neg hdir, Inode.nameCount_of_not_dir hdir,
      Inode.upCount_of_not_live fun hl => hdir hl.1]

theorem exists_name (h : 0 < nameCount t i) :
    ∃ d, d < NINODES ∧ (t d).type = .dir ∧ ∃ de ∈ (t d).names, de.inum = i := by
  obtain ⟨d, hd, hpos⟩ := exists_of_tally_pos h
  have hdir : (t d).type = .dir := by grind [Inode.nameCount_of_not_dir]
  rw [Inode.nameCount, if_pos hdir] at hpos
  obtain ⟨de, hmem, hde⟩ := List.countP_pos_iff.1 hpos
  exact ⟨d, hd, hdir, de, hmem, of_decide_eq_true hde⟩

theorem TreeInv.nameCount_pos (h : TreeInv t) (hdir : (t d).type = .dir) (hde : de ∈ (t d).names) :
    0 < nameCount t de.inum := by
  have hlt := (h.range d (by rw [hdir]; simp)).2
  refine Nat.lt_of_lt_of_le ?_ (le_tally hlt)
  rw [Inode.nameCount, if_pos hdir]
  exact List.countP_pos_iff.2 ⟨de, hde, by simp⟩

theorem TreeInv.live_of_name (h : TreeInv t) (hdir : (t d).type = .dir) (hde : de ∈ (t d).names)
    (hi : de.inum ≠ 0) : (t d).Live :=
  ⟨hdir, fun hdead => hi (h.dead d hdir hdead de hde)⟩

theorem TreeInv.name_of_live (h : TreeInv t) (hlive : (t d).Live) (hroot : d ≠ ROOTINO) :
    (t (t d).up).type = .dir ∧ ∃ de ∈ (t (t d).up).names, de.inum = d := by
  have hone : 0 < nameCount t d := by
    rw [h.once d hlive.1, if_neg (not_or.2 ⟨hroot, hlive.2⟩)]
    exact Nat.one_pos
  obtain ⟨e, -, hdir, de, hde, rfl⟩ := exists_name hone
  have hpos := (h.range _ (by rw [hlive.1]; simp)).1
  rw [(h.named e de hdir hde (by omega)).2 hlive.1]
  exact ⟨hdir, de, hde, rfl⟩

theorem TreeInv.up_live (h : TreeInv t) (hlive : (t d).Live) : (t (t d).up).Live := by
  by_cases hroot : d = ROOTINO
  · subst hroot
    rw [h.root.2]
    exact h.root.1
  · obtain ⟨hdir, de, hde, hi⟩ := h.name_of_live hlive hroot
    have hpos := (h.range d (by rw [hlive.1]; simp)).1
    exact h.live_of_name hdir hde (by omega)

theorem exists_child (h : 0 < upCount t i) : ∃ d, d < NINODES ∧ (t d).Live ∧ (t d).up = i := by
  obtain ⟨d, hd, hpos⟩ := exists_of_tally_pos h
  refine ⟨d, hd, ?_⟩
  by_contra hno
  rw [Inode.upCount, if_neg hno] at hpos
  exact Nat.lt_irrefl 0 hpos

theorem TreeInv.free_unlinked (h : TreeInv t) (hi : i ≠ 0) (hfree : (t i).type = .free) :
    nameCount t i = 0 ∧ upCount t i = 0 := by
  constructor
  · grind [exists_name, h.named]
  · by_contra hno
    obtain ⟨d, -, hlive, rfl⟩ := exists_child (Nat.pos_of_ne_zero hno)
    rw [(h.up_live hlive).1] at hfree
    cases hfree

theorem TreeInv.dir_links_le (h : TreeInv t) (hdir : (t i).type = .dir) :
    links t i ≤ NINODES + 1 := by
  have hi := (h.range i (by rw [hdir]; simp)).1
  have hups : upCount t i ≤ NINODES := tally_le fun _ _ => Inode.upCount_le
  have honce := h.once i hdir
  rw [links_eq h.shape (by omega)]
  split at honce <;> omega

/-! ### Editing a directory -/

/-- The directory with another link count and an entry more. -/
def Inode.insert (ip : Inode) (nlink : BitVec 16) (de : Dirent) : Inode :=
  { ip with nlink := nlink, entries := insertDirent de ip.entries }

/-- The directory with another link count and an entry less. -/
def Inode.clear (ip : Inode) (nlink : BitVec 16) (off : Nat) : Inode :=
  { ip with nlink := nlink, entries := ip.entries.set off ⟨[], 0⟩ }

variable {n : BitVec 16}

theorem Shaped.insert_entries (h : Shaped d ip) : (ip.insert n de).entries =
    ⟨dot, d⟩ :: ⟨dotdot, ip.up⟩ :: insertDirent de ip.names := by
  have hself : (⟨dot, d⟩ : Dirent).inum ≠ 0 := Nat.one_le_iff_ne_zero.1 h.self_pos
  have hup : (⟨dotdot, ip.up⟩ : Dirent).inum ≠ 0 := Nat.one_le_iff_ne_zero.1 h.up_pos
  show insertDirent de ip.entries = _
  conv_lhs => rw [h.entries]
  rw [insertDirent_cons hself, insertDirent_cons hup]

theorem Shaped.insert_up (h : Shaped d ip) : (ip.insert n de).up = ip.up := by
  rw [Inode.up, h.insert_entries]
  rfl

theorem Shaped.insert_names (h : Shaped d ip) :
    (ip.insert n de).names = insertDirent de ip.names := by
  rw [Inode.names, h.insert_entries]
  rfl

theorem Shaped.insert (h : Shaped d ip) (hde : de.name ≠ dot ∧ de.name ≠ dotdot) :
    Shaped d (ip.insert n de) where
  entries := by rw [h.insert_up, h.insert_names, h.insert_entries]
  self_pos := h.self_pos
  up_pos := by rw [h.insert_up]; exact h.up_pos
  names y hy hi := by grind [h.insert_names, mem_insertDirent, h.names]

theorem Shaped.insert_nameCount (h : Shaped d ip) (hdir : ip.type = .dir) (hi : i ≠ 0) :
    (ip.insert n de).nameCount i = ip.nameCount i + if de.inum = i then 1 else 0 := by
  have hdir' : (ip.insert n de).type = .dir := hdir
  rw [Inode.nameCount, if_pos hdir', h.insert_names, countP_insertDirent hi, Inode.nameCount,
    if_pos hdir]

theorem Shaped.place (h : Shaped d ip) (hname : name ≠ dot ∧ name ≠ dotdot)
    (hoff : ip.entries[off]? = some ⟨name, i⟩) :
    ∃ k, off = k + 2 ∧ ip.names[k]? = some ⟨name, i⟩ := by grind [h.entries]

theorem Shaped.clear_entries (h : Shaped d ip) {k : Nat} : (ip.clear n (k + 2)).entries =
    ⟨dot, d⟩ :: ⟨dotdot, ip.up⟩ :: ip.names.set k ⟨[], 0⟩ := by
  show ip.entries.set (k + 2) ⟨[], 0⟩ = _
  conv_lhs => rw [h.entries]
  rfl

theorem Shaped.clear_up (h : Shaped d ip) {k : Nat} : (ip.clear n (k + 2)).up = ip.up := by
  rw [Inode.up, h.clear_entries]
  rfl

theorem Shaped.clear_names (h : Shaped d ip) {k : Nat} :
    (ip.clear n (k + 2)).names = ip.names.set k ⟨[], 0⟩ := by
  rw [Inode.names, h.clear_entries]
  rfl

theorem mem_clear {l : List Dirent} {k : Nat} {y : Dirent} (hy : y ∈ l.set k ⟨[], 0⟩)
    (hi : y.inum ≠ 0) : y ∈ l := by grind

theorem Shaped.clear (h : Shaped d ip) {k : Nat} : Shaped d (ip.clear n (k + 2)) where
  entries := by rw [h.clear_up, h.clear_names, h.clear_entries]
  self_pos := h.self_pos
  up_pos := by rw [h.clear_up]; exact h.up_pos
  names y hy hi := by
    rw [h.clear_names] at hy
    exact h.names y (mem_clear hy hi) hi

theorem Shaped.clear_nameCount (h : Shaped d ip) {k : Nat} (hdir : ip.type = .dir) (hi : i ≠ 0)
    (hx : ip.names[k]? = some de) :
    (ip.clear n (k + 2)).nameCount i + (if de.inum = i then 1 else 0) = ip.nameCount i := by
  have hdir' : (ip.clear n (k + 2)).type = .dir := hdir
  rw [Inode.nameCount, if_pos hdir', h.clear_names, countP_clear hi hx, Inode.nameCount,
    if_pos hdir]

theorem Inode.upCount_congr {x y : Inode} (hlive : x.Live ↔ y.Live) (hup : x.up = y.up) :
    x.upCount i = y.upCount i := by
  simp only [Inode.upCount, hlive, hup]

/-! ### Link counts -/

theorem nlink_succ (h : n.toNat + 1 < 2 ^ 16) : (n + 1).toNat = n.toNat + 1 := by
  rw [BitVec.toNat_add]
  exact Nat.mod_eq_of_lt h

theorem nlink_pred (h : 1 ≤ n.toNat) : (n - 1).toNat = n.toNat - 1 := by
  have hlt := n.isLt
  rw [BitVec.toNat_sub]
  show (2 ^ 16 - 1 + n.toNat) % 2 ^ 16 = n.toNat - 1
  omega

theorem nlink_ne_zero : n ≠ 0 ↔ n.toNat ≠ 0 := by
  rw [ne_eq, ne_eq, ← BitVec.toNat_inj]
  rfl

theorem TreeInv.nlink_pos (h : TreeInv t) (hi : (t i).type ≠ .free) (hn : 0 < nameCount t i) :
    1 ≤ (t i).nlink.toNat := by
  have hpos := (h.range i hi).1
  rw [(h.exact i hi).1, links_eq h.shape (by omega)]
  omega

/-! ### A new inode -/

/-- An inode that `create` made in directory `dp`. -/
def Inode.made (ty : InodeType) (ip dp : Nat) : Inode where
  type := ty
  nlink := 1
  entries := if ty = .dir then [⟨dot, ip⟩, ⟨dotdot, dp⟩] else []

/-- The link count of `dp` after `create`: one more for the `..` of a new directory. -/
def linksAfterCreate (ty : InodeType) (n : BitVec 16) : BitVec 16 := if ty = .dir then n + 1 else n

theorem Inode.made_names (ty : InodeType) (ip dp : Nat) : (Inode.made ty ip dp).names = [] := by
  unfold Inode.names Inode.made
  split <;> rfl

theorem Inode.made_nameCount (ty : InodeType) (ip dp : Nat) :
    (Inode.made ty ip dp).nameCount i = 0 := by
  unfold Inode.nameCount
  rw [Inode.made_names]
  split <;> rfl

theorem Inode.made_up {ty : InodeType} (h : ty = .dir) (ip dp : Nat) :
    (Inode.made ty ip dp).up = dp := by
  subst h
  rfl

theorem Inode.made_upCount (ty : InodeType) (ip dp : Nat) :
    (Inode.made ty ip dp).upCount i = if ty = .dir ∧ dp = i then 1 else 0 := by
  by_cases hty : ty = .dir
  · subst hty
    have hlive : (Inode.made .dir ip dp).Live := ⟨rfl, show (1 : BitVec 16) ≠ 0 by decide⟩
    simp only [Inode.upCount, hlive, Inode.made_up rfl, true_and]
  · rw [Inode.upCount_of_not_live fun hl => hty hl.1, if_neg fun hc => hty hc.1]

theorem Shaped.made {ty : InodeType} {ip dp : Nat} (hty : ty = .dir) (hip : 1 ≤ ip)
    (hdp : 1 ≤ dp) : Shaped ip (Inode.made ty ip dp) where
  entries := by subst hty; rfl
  self_pos := hip
  up_pos := by rw [Inode.made_up hty]; exact hdp
  names de hde := by
    rw [Inode.made_names] at hde
    exact (List.not_mem_nil hde).elim

/-! ### Editing an inode and the directory that names it -/

variable {t' : Table} {a : Nat}

/-- The table `t'` differs from `t` in the inode `a` and in a directory `dp`, which is still
    linked and may have got a name for `a` or lost one. -/
structure Edit (t t' : Table) (a dp : Nat) : Prop where
  ne : dp ≠ a
  live : (t dp).Live
  live' : (t' dp).Live
  up : (t' dp).up = (t dp).up
  shape : Shaped dp (t' dp)
  names : ∀ de ∈ (t' dp).names, de.inum ≠ 0 → de ∈ (t dp).names ∨ de.inum = a
  other : ∀ i, i ≠ a → i ≠ dp → t' i = t i

theorem Edit.type (e : Edit t t' a dp) (hi : i ≠ a) : (t' i).type = (t i).type := by
  by_cases hidp : i = dp
  · subst hidp
    rw [e.live'.1, e.live.1]
  · rw [e.other i hi hidp]

theorem Edit.up_eq (e : Edit t t' a dp) (hi : i ≠ a) : (t' i).up = (t i).up := by
  by_cases hidp : i = dp
  · subst hidp
    exact e.up
  · rw [e.other i hi hidp]

theorem Edit.live_iff (e : Edit t t' a dp) (hi : i ≠ a) : (t' i).Live ↔ (t i).Live := by
  by_cases hidp : i = dp
  · subst hidp
    exact iff_of_true e.live' e.live
  · rw [e.other i hi hidp]

theorem Edit.mem_names (e : Edit t t' a dp) (hi : i ≠ a) (hde : de ∈ (t' i).names)
    (hne : de.inum ≠ 0) : de ∈ (t i).names ∨ (i = dp ∧ de.inum = a) := by
  by_cases hidp : i = dp
  · subst hidp
    exact (e.names de hde hne).imp_right fun heq => ⟨rfl, heq⟩
  · rw [e.other i hi hidp] at hde
    exact .inl hde

theorem TreeInv.nameCount_edit (h : TreeInv t) (e : Edit t t' a dp) (ha : a < NINODES) (i : Nat) :
    nameCount t' i + ((t a).nameCount i + (t dp).nameCount i) =
      nameCount t i + ((t' a).nameCount i + (t' dp).nameCount i) :=
  tally_two ha (h.range dp (by rw [e.live.1]; simp)).2 e.ne e.other

theorem TreeInv.upCount_edit (h : TreeInv t) (e : Edit t t' a dp) (ha : a < NINODES) (i : Nat) :
    upCount t' i + (t a).upCount i = upCount t i + (t' a).upCount i := by
  have htwo := tally_two (f := fun ip => ip.upCount i) ha (h.range dp (by rw [e.live.1]; simp)).2
    e.ne e.other
  have hdp := Inode.upCount_congr (i := i) (e.live_iff e.ne) e.up
  simp only [hdp] at htwo
  rw [upCount, upCount]
  omega

/-- An edit keeps the tree if the inode `a` fits in its place, and the counts of `a` and `dp`
    are right. -/
theorem TreeInv.edit (h : TreeInv t) (e : Edit t t' a dp) (hrange : 1 ≤ a ∧ a < NINODES)
    (hroot : a ≠ ROOTINO) (halloc : (t' a).type ≠ .free)
    (hshape : (t' a).type = .dir → Shaped a (t' a))
    (hempty : (t' a).type = .dir → ∀ de ∈ (t' a).names, de.inum = 0)
    (hplace : (t' a).type = .dir → ∀ d de, (t' d).type = .dir → de ∈ (t' d).names →
      de.inum = a → (t' a).up = d)
    (honce : (t' a).type = .dir → nameCount t' a = if (t' a).nlink = 0 then 0 else 1)
    (hnames : ∀ i, i ≠ 0 → i ≠ a → nameCount t' i = nameCount t i)
    (hups : ∀ i, i ≠ 0 → i ≠ a → i ≠ dp → upCount t' i = upCount t i)
    (hexact : ∀ i, i = a ∨ i = dp → (t' i).nlink.toNat = nameCount t' i + upCount t' i ∧
      nameCount t' i + upCount t' i < 2 ^ 15) :
    TreeInv t' := by
  have hshape' : ∀ d, (t' d).type = .dir → Shaped d (t' d) := by
    intro d hd
    by_cases hda : d = a
    · subst hda
      exact hshape hd
    · by_cases hddp : d = dp
      · subst hddp
        exact e.shape
      · rw [e.other d hda hddp] at hd ⊢
        exact h.shape d hd
  have hrange' : ∀ i, (t' i).type ≠ .free → 1 ≤ i ∧ i < NINODES := by
    intro i hi
    by_cases hia : i = a
    · subst hia
      exact hrange
    · rw [e.type hia] at hi
      exact h.range i hi
  refine ⟨hrange', hshape', ?_, fun d de hd hde hi => ?_, fun i hi => ?_,
    fun d hd hdead de hde => ?_, fun i hi => ?_⟩
  · exact ⟨(e.live_iff hroot.symm).2 h.root.1, (e.up_eq hroot.symm).trans h.root.2⟩
  · -- a name is either one of `a` or an old one
    by_cases hdea : de.inum = a
    · rw [hdea]
      exact ⟨halloc, fun hdir => hplace hdir d de hd hde hdea⟩
    · by_cases hda : d = a
      · subst hda
        exact (hi (hempty hd de hde)).elim
      · rw [e.type hda] at hd
        have hold := (e.mem_names hda hde hi).resolve_right fun hc => hdea hc.2
        obtain ⟨hfree, hup⟩ := h.named d de hd hold hi
        rw [e.type hdea, e.up_eq hdea]
        exact ⟨hfree, hup⟩
  · by_cases hia : i = a
    · subst hia
      simp only [honce hi, hroot, false_or]
    · have hi' := hi
      rw [e.type hia] at hi'
      have hpos := (h.range i (by rw [hi']; simp)).1
      have hdead : (t' i).nlink = 0 ↔ (t i).nlink = 0 := by
        have hlive := not_congr (e.live_iff hia)
        simp only [Inode.Live, hi, hi', true_and, not_not, ne_eq] at hlive
        exact hlive
      rw [hnames i (by omega) hia, h.once i hi']
      simp only [hdead]
  · by_contra hi
    by_cases hda : d = a
    · subst hda
      exact hi (hempty hd de hde)
    · by_cases hddp : d = dp
      · subst hddp
        exact e.live'.2 hdead
      · rw [e.other d hda hddp] at hd hdead hde
        exact hi (h.dead d hd hdead de hde)
  · have hpos := (hrange' i hi).1
    rw [links_eq hshape' (by omega)]
    by_cases hia : i = a
    · exact hexact i (.inl hia)
    · by_cases hidp : i = dp
      · exact hexact i (.inr hidp)
      · rw [hnames i (by omega) hia, hups i (by omega) hia hidp, ← links_eq h.shape (by omega),
          e.other i hia hidp]
        exact h.exact i (by rwa [← e.type hia])

/-- `create` keeps the tree: it makes the inode `a` and names it in `dp`. -/
theorem TreeInv.create {ty : InodeType} (h : TreeInv t) (hdp : (t dp).Live) (hrange : 1 ≤ a ∧ a < NINODES)
    (hfree : (t a).type = .free) (hty : ty ≠ .free) (hname : name ≠ dot ∧ name ≠ dotdot)
    (hata : t' a = Inode.made ty a dp)
    (hatdp : t' dp = (t dp).insert (linksAfterCreate ty (t dp).nlink) ⟨name, a⟩)
    (hother : ∀ i, i ≠ a → i ≠ dp → t' i = t i) : TreeInv t' := by
  have halloc : (t dp).type ≠ .free := by rw [hdp.1]; simp
  have hsdp := h.shape dp hdp.1
  have hne : dp ≠ a := by
    rintro rfl
    exact halloc hfree
  have hnotdir : (t a).type ≠ .dir := by rw [hfree]; simp
  have hbound := h.dir_links_le hdp.1
  have hexact := h.exact dp halloc
  rw [links_eq h.shape (by have hpos := (h.range dp halloc).1; omega)] at hbound hexact
  simp only [NINODES] at hbound
  have hnlink : (t' dp).nlink.toNat = (t dp).nlink.toNat + if ty = .dir then 1 else 0 := by
    rw [hatdp]
    show (linksAfterCreate ty (t dp).nlink).toNat = _
    unfold linksAfterCreate
    split
    · exact nlink_succ (by omega)
    · rfl
  have hlive : (t' dp).Live := by
    refine ⟨by rw [hatdp]; exact hdp.1, nlink_ne_zero.2 ?_⟩
    have hold := nlink_ne_zero.1 hdp.2
    omega
  have e : Edit t t' a dp := by
    refine ⟨hne, hdp, hlive, ?_, ?_, fun de hde hi => ?_, hother⟩
    · rw [hatdp, hsdp.insert_up]
    · rw [hatdp]
      exact hsdp.insert hname
    · grind [hsdp.insert_names, mem_insertDirent]
  obtain ⟨hna, hua⟩ := h.free_unlinked (by omega) hfree
  -- one name more for `a`, and one child more for `dp` if `a` is a directory
  have hnames : ∀ i, i ≠ 0 → nameCount t' i = nameCount t i + if a = i then 1 else 0 := by
    intro i hi
    have hedit := h.nameCount_edit e hrange.2 i
    rw [hata, hatdp, Inode.made_nameCount, hsdp.insert_nameCount hdp.1 hi,
      Inode.nameCount_of_not_dir hnotdir] at hedit
    dsimp only at hedit
    omega
  have hups : ∀ i, upCount t' i = upCount t i + if ty = .dir ∧ dp = i then 1 else 0 := by
    intro i
    have hedit := h.upCount_edit e hrange.2 i
    rw [hata, Inode.made_upCount, Inode.upCount_of_not_live fun hl => hnotdir hl.1] at hedit
    omega
  have hroot : a ≠ ROOTINO := by
    rintro rfl
    exact hnotdir h.root.1.1
  have hone : (t' a).nlink = 1 := by rw [hata]; rfl
  have htype : (t' a).type = ty := by rw [hata]; rfl
  refine h.edit e hrange hroot (by rw [htype]; exact hty) ?_ ?_ ?_ ?_ ?_ ?_ ?_
  · intro hdir
    rw [htype] at hdir
    rw [hata]
    exact Shaped.made hdir hrange.1 (h.range dp halloc).1
  · intro _ de hde
    rw [hata, Inode.made_names] at hde
    exact (List.not_mem_nil hde).elim
  · intro hdir d de hd hde hda
    rw [htype] at hdir
    have hda' : d ≠ a := by
      rintro rfl
      rw [hata, Inode.made_names] at hde
      exact List.not_mem_nil hde
    rcases e.mem_names hda' hde (by omega) with hold | ⟨rfl, -⟩
    · rw [e.type hda'] at hd
      exact ((h.named d de hd hold (by omega)).1 (by rw [hda]; exact hfree)).elim
    · rw [hata, Inode.made_up hdir]
  · intro _
    rw [hnames a (by omega), hna, hone]
    simp
  · intro i hi hia
    rw [hnames i hi, if_neg (Ne.symm hia), Nat.add_zero]
  · intro i _ _ hidp
    rw [hups i, if_neg fun hc => hidp hc.2.symm, Nat.add_zero]
  · rintro i (rfl | rfl)
    · rw [hnames i (by omega), hups i, hna, hua, if_pos rfl, if_neg fun hc => hne hc.2, hone]
      exact ⟨by simp, by omega⟩
    · rw [hnames i (by have hpos := (h.range i halloc).1; omega), hups i, if_neg (Ne.symm hne), hnlink]
      simp only [and_true]
      split <;> omega

/-! ### Linking -/

def Inode.setNlink (ip : Inode) (n : BitVec 16) : Inode := { ip with nlink := n }

theorem Shaped.setNlink (h : Shaped d ip) : Shaped d (ip.setNlink n) :=
  ⟨h.entries, h.self_pos, h.up_pos, h.names⟩

theorem Inode.setNlink_nameCount : (ip.setNlink n).nameCount i = ip.nameCount i := rfl

/-- `link` keeps the tree: the file `a` gets one more name, in `dp`. -/
theorem TreeInv.link (h : TreeInv t) (hdp : (t dp).Live) (halloc : (t a).type ≠ .free)
    (hfile : (t a).type ≠ .dir) (hname : name ≠ dot ∧ name ≠ dotdot)
    (hmany : (t a).nlink.toNat + 1 < 2 ^ 15)
    (hata : t' a = (t a).setNlink ((t a).nlink + 1))
    (hatdp : t' dp = (t dp).insert (t dp).nlink ⟨name, a⟩)
    (hother : ∀ i, i ≠ a → i ≠ dp → t' i = t i) : TreeInv t' := by
  have hrange := h.range a halloc
  have hsdp := h.shape dp hdp.1
  have hne : dp ≠ a := by
    rintro rfl
    exact hfile hdp.1
  have hlive : (t' dp).Live := by
    rw [hatdp]
    exact hdp
  have e : Edit t t' a dp := by
    refine ⟨hne, hdp, hlive, ?_, ?_, fun de hde hi => ?_, hother⟩
    · rw [hatdp, hsdp.insert_up]
    · rw [hatdp]
      exact hsdp.insert hname
    · rw [hatdp, hsdp.insert_names] at hde
      exact (mem_insertDirent hde).symm.imp_right fun heq => by rw [heq]
  have htype : (t' a).type = (t a).type := by rw [hata]; rfl
  have hnames : ∀ i, i ≠ 0 → nameCount t' i = nameCount t i + if a = i then 1 else 0 := by
    intro i hi
    have hedit := h.nameCount_edit e hrange.2 i
    rw [hata, hatdp, Inode.setNlink_nameCount, hsdp.insert_nameCount hdp.1 hi] at hedit
    dsimp only at hedit
    omega
  have hups : ∀ i, upCount t' i = upCount t i := by
    intro i
    have hedit := h.upCount_edit e hrange.2 i
    rw [Inode.upCount_of_not_live fun hl => hfile hl.1,
      Inode.upCount_of_not_live fun hl => hfile (htype ▸ hl.1)] at hedit
    omega
  have hnotdir : (t' a).type ≠ .dir := by rw [htype]; exact hfile
  have hroot : a ≠ ROOTINO := by
    rintro rfl
    exact hfile h.root.1.1
  refine h.edit e hrange hroot (by rw [htype]; exact halloc) (fun hdir => (hnotdir hdir).elim)
    (fun hdir => (hnotdir hdir).elim) (fun hdir => (hnotdir hdir).elim)
    (fun hdir => (hnotdir hdir).elim) ?_ (fun i _ _ _ => hups i) ?_
  · intro i hi hia
    rw [hnames i hi, if_neg (Ne.symm hia), Nat.add_zero]
  · rintro i (rfl | rfl)
    · have hexact := h.exact i halloc
      rw [links_eq h.shape (by omega)] at hexact
      have hnl : (t' i).nlink.toNat = (t i).nlink.toNat + 1 := by
        rw [hata]
        exact nlink_succ (by omega)
      rw [hnames i (by omega), hups i, if_pos rfl]
      omega
    · have hpos := h.range i (by rw [hdp.1]; simp)
      have hexact := h.exact i (by rw [hdp.1]; simp)
      rw [links_eq h.shape (by omega)] at hexact
      have hnl : (t' i).nlink = (t i).nlink := by rw [hatdp]; rfl
      rw [hnames i (by omega), hups i, if_neg (Ne.symm hne), hnl]
      omega

/-! ### Unlinking -/

/-- The link count of `dp` after `unlink`: one less for the `..` of a directory. -/
def linksAfterUnlink (ty : InodeType) (n : BitVec 16) : BitVec 16 := if ty = .dir then n - 1 else n

theorem TreeInv.childless (h : TreeInv t) (hroot : a ≠ ROOTINO)
    (hempty : ∀ de ∈ (t a).names, de.inum = 0) : upCount t a = 0 := by
  by_contra hno
  obtain ⟨d, -, hlive, rfl⟩ := exists_child (Nat.pos_of_ne_zero hno)
  have hd : d ≠ ROOTINO := by
    rintro rfl
    exact hroot h.root.2
  obtain ⟨-, de, hde, hi⟩ := h.name_of_live hlive hd
  have hpos := (h.range d (by rw [hlive.1]; simp)).1
  have hzero := hempty de hde
  omega

theorem TreeInv.two_links (h : TreeInv t) (hdp : (t dp).Live) (ha : (t a).Live) (hroot : a ≠ ROOTINO)
    (hup : (t a).up = dp) : 2 ≤ (t dp).nlink.toNat := by
  have hlta := (h.range a (by rw [ha.1]; simp)).2
  have hrdp := h.range dp (by rw [hdp.1]; simp)
  have hchild : (t a).upCount dp = 1 := if_pos ⟨ha, hup⟩
  rw [(h.exact dp (by rw [hdp.1]; simp)).1, links_eq h.shape (by omega)]
  by_cases hdproot : dp = ROOTINO
  · have hself : (t dp).upCount dp = 1 := if_pos ⟨hdp, by rw [hdproot]; exact h.root.2⟩
    have hsum := add_le_tally (f := fun ip => ip.upCount dp) (t := t) hrdp.2 hlta
      (by rw [hdproot]; exact hroot)
    rw [upCount]
    omega
  · have honce := h.once dp hdp.1
    rw [if_neg (not_or.2 ⟨hdproot, hdp.2⟩)] at honce
    have hle := le_tally (f := fun ip => ip.upCount dp) (t := t) hlta
    rw [upCount]
    omega

/-- A name of the directory `dp`, and what is behind it. -/
theorem TreeInv.linked (h : TreeInv t) (hdp : (t dp).type = .dir) {k : Nat}
    (hk : (t dp).names[k]? = some ⟨name, a⟩) (ha : a ≠ 0) :
    (t dp).Live ∧ (t a).type ≠ .free ∧ a ≠ ROOTINO ∧ 0 < nameCount t a ∧
      ((t a).type = .dir → (t a).Live ∧ (t a).up = dp) := by
  have hmem := List.mem_of_getElem? hk
  have hpos := h.nameCount_pos hdp hmem
  obtain ⟨halloc, hup⟩ := h.named dp _ hdp hmem ha
  have honce : (t a).type = .dir → a ≠ ROOTINO ∧ (t a).nlink ≠ 0 := by
    intro hdir
    rw [← not_or]
    intro hor
    rw [h.once a hdir, if_pos hor] at hpos
    exact Nat.lt_irrefl 0 hpos
  refine ⟨h.live_of_name hdp hmem ha, halloc, ?_, hpos, fun hdir => ⟨⟨hdir, (honce hdir).2⟩, hup hdir⟩⟩
  rintro rfl
  exact (honce h.root.1.1).1 rfl

theorem TreeInv.parent_stays (h : TreeInv t) (hdp : (t dp).type = .dir) {k : Nat}
    (hk : (t dp).names[k]? = some ⟨name, a⟩) (ha : a ≠ 0) :
    (linksAfterUnlink (t a).type (t dp).nlink).toNat + (if (t a).type = .dir then 1 else 0) =
      (t dp).nlink.toNat ∧ linksAfterUnlink (t a).type (t dp).nlink ≠ 0 := by
  obtain ⟨hlivedp, -, hroot, -, hdira⟩ := h.linked hdp hk ha
  unfold linksAfterUnlink
  by_cases hdir : (t a).type = .dir
  · have hge := h.two_links hlivedp (hdira hdir).1 hroot (hdira hdir).2
    have hpred := nlink_pred (n := (t dp).nlink) (by omega)
    rw [if_pos hdir, if_pos hdir, nlink_ne_zero]
    omega
  · rw [if_neg hdir, if_neg hdir]
    exact ⟨rfl, hlivedp.2⟩

theorem TreeInv.last_link (h : TreeInv t) (ha : (t a).Live) (hroot : a ≠ ROOTINO)
    (hempty : ∀ de ∈ (t a).names, de.inum = 0) :
    (t a).nlink.toNat = 1 ∧ nameCount t a = 1 ∧ upCount t a = 0 := by
  have halloc : (t a).type ≠ .free := by rw [ha.1]; simp
  have hpos := (h.range a halloc).1
  have honce := h.once a ha.1
  rw [if_neg (not_or.2 ⟨hroot, ha.2⟩)] at honce
  have hno := h.childless hroot hempty
  have hexact := (h.exact a halloc).1
  rw [links_eq h.shape (by omega)] at hexact
  omega

/-- `unlink` keeps the tree: `a` loses its name in `dp`. A directory loses its only one, and
    its `..` counts no more. -/
theorem TreeInv.unlink (h : TreeInv t) (hdp : (t dp).type = .dir) {k : Nat}
    (hk : (t dp).names[k]? = some ⟨name, a⟩) (ha : a ≠ 0)
    (hempty : (t a).type = .dir → ∀ de ∈ (t a).names, de.inum = 0)
    (hata : t' a = (t a).setNlink ((t a).nlink - 1))
    (hatdp : t' dp = (t dp).clear (linksAfterUnlink (t a).type (t dp).nlink) (k + 2))
    (hother : ∀ i, i ≠ a → i ≠ dp → t' i = t i) : TreeInv t' := by
  obtain ⟨hlivedp, halloc, hroot, hnamed, hdira⟩ := h.linked hdp hk ha
  have hrange := h.range a halloc
  have hrdp := h.range dp (by rw [hdp]; simp)
  have hsdp := h.shape dp hdp
  have hmem := List.mem_of_getElem? hk
  have hne : dp ≠ a := by
    rintro rfl
    exact ha (hempty hdp _ hmem)
  have hexacta := h.exact a halloc
  have hexactdp := h.exact dp (by rw [hdp]; simp)
  rw [links_eq h.shape ha] at hexacta
  rw [links_eq h.shape (by omega)] at hexactdp
  obtain ⟨hnlink, hstays⟩ := h.parent_stays hdp hk ha
  have hnldp : (t' dp).nlink = linksAfterUnlink (t a).type (t dp).nlink := by rw [hatdp]; rfl
  rw [← hnldp] at hnlink hstays
  have hlive : (t' dp).Live := ⟨by rw [hatdp]; exact hdp, hstays⟩
  have e : Edit t t' a dp := by
    refine ⟨hne, hlivedp, hlive, ?_, ?_, fun de hde hi => ?_, hother⟩
    · rw [hatdp, hsdp.clear_up]
    · rw [hatdp]
      exact hsdp.clear
    · rw [hatdp, hsdp.clear_names] at hde
      exact .inl (mem_clear hde hi)
  have htype : (t' a).type = (t a).type := by rw [hata]; rfl
  have hnla : (t' a).nlink.toNat = (t a).nlink.toNat - 1 := by
    rw [hata]
    exact nlink_pred (by omega)
  -- one name less for `a`, and one child less for `dp` if `a` is a directory
  have hnames : ∀ i, i ≠ 0 → nameCount t' i + (if a = i then 1 else 0) = nameCount t i := by
    intro i hi
    have hedit := h.nameCount_edit e hrange.2 i
    have hclear := hsdp.clear_nameCount (n := linksAfterUnlink (t a).type (t dp).nlink) hdp hi hk
    rw [hata, hatdp, Inode.setNlink_nameCount] at hedit
    dsimp only at hclear
    omega
  have hdead := fun hdir => h.last_link (hdira hdir).1 hroot (hempty hdir)
  have hups : ∀ i, upCount t' i + (if (t a).type = .dir ∧ dp = i then 1 else 0) = upCount t i := by
    intro i
    have hedit := h.upCount_edit e hrange.2 i
    have hgone : (t' a).upCount i = 0 := by
      refine Inode.upCount_of_not_live fun hl => ?_
      have hone := (hdead (htype ▸ hl.1)).1
      have hzero := nlink_ne_zero.1 hl.2
      omega
    have hwas : (t a).upCount i = if (t a).type = .dir ∧ dp = i then 1 else 0 := by
      by_cases hdir : (t a).type = .dir
      · obtain ⟨hla, hup⟩ := hdira hdir
        simp only [Inode.upCount, hla, hup, hdir, true_and]
      · rw [Inode.upCount_of_not_live fun hl => hdir hl.1, if_neg fun hc => hdir hc.1]
    rw [hgone, hwas] at hedit
    omega
  refine h.edit e hrange hroot (by rw [htype]; exact halloc) ?_ ?_ ?_ ?_ ?_ ?_ ?_
  · intro hdir
    rw [htype] at hdir
    rw [hata]
    exact (h.shape a hdir).setNlink
  · intro hdir
    rw [htype] at hdir
    rw [hata]
    exact hempty hdir
  · intro hdir d de hd hde hda
    rw [htype] at hdir
    have hda' : d ≠ a := by
      rintro rfl
      rw [hata] at hde
      have hzero := hempty hdir de hde
      omega
    have hold : de ∈ (t d).names := by
      rcases e.mem_names hda' hde (by omega) with hold | ⟨rfl, -⟩
      · exact hold
      · rw [hatdp, hsdp.clear_names] at hde
        exact mem_clear hde (by omega)
    rw [e.type hda'] at hd
    have hup := (h.named d de hd hold (by omega)).2
    rw [hda] at hup
    rw [hata]
    exact hup hdir
  · intro hdir
    rw [htype] at hdir
    obtain ⟨hone, hname1, -⟩ := hdead hdir
    have hn := hnames a ha
    rw [if_pos rfl] at hn
    have hzero : (t' a).nlink = 0 := by
      by_contra hno
      have hnz := nlink_ne_zero.1 hno
      omega
    rw [if_pos hzero]
    omega
  · intro i hi hia
    have hn := hnames i hi
    rw [if_neg (Ne.symm hia)] at hn
    omega
  · intro i _ _ hidp
    have hu := hups i
    rw [if_neg fun hc => hidp hc.2.symm] at hu
    omega
  · rintro i (rfl | rfl)
    · have hn := hnames i ha
      have hu := hups i
      rw [if_pos rfl] at hn
      rw [if_neg fun hc => hne hc.2] at hu
      omega
    · have hn := hnames i (by omega)
      have hu := hups i
      rw [if_neg (Ne.symm hne)] at hn
      simp only [and_true] at hu
      omega

/-! ### Freeing -/

def Inode.freed (ip : Inode) : Inode := { ip with type := .free, entries := [] }

theorem TreeInv.free (h : TreeInv t) (hzero : (t a).nlink = 0) (halloc : (t a).type ≠ .free)
    (hata : t' a = (t a).freed)
    (hother : ∀ i, i ≠ a → t' i = t i) : TreeInv t' := by
  have hrange := h.range a halloc
  have hexact := (h.exact a halloc).1
  rw [hzero, links_eq h.shape (by omega)] at hexact
  have hnone : nameCount t a = 0 ∧ upCount t a = 0 := by
    have hz : (0 : BitVec 16).toNat = 0 := rfl
    omega
  have hroot : a ≠ ROOTINO := by
    rintro rfl
    exact h.root.1.2 hzero
  have hfree : (t' a).type = .free := by rw [hata]; rfl
  have hnotdir : (t' a).type ≠ .dir := by rw [hfree]; simp
  have hda : ∀ d, (t' d).type ≠ .free → d ≠ a := by
    rintro d hd rfl
    exact hd hfree
  -- what the inode contained was no link
  have hnames : ∀ i, i ≠ 0 → nameCount t' i = nameCount t i := by
    intro i hi
    have hone := tally_one (f := fun ip => ip.nameCount i) hrange.2 hother
    have hwas : (t a).nameCount i = 0 := by
      by_cases hdir : (t a).type = .dir
      · rw [Inode.nameCount, if_pos hdir, List.countP_eq_zero]
        intro de hde
        rw [decide_eq_true_eq, h.dead a hdir hzero de hde]
        exact hi.symm
      · exact Inode.nameCount_of_not_dir hdir
    rw [hwas, Inode.nameCount_of_not_dir hnotdir] at hone
    rw [nameCount, nameCount]
    omega
  have hups : ∀ i, upCount t' i = upCount t i := by
    intro i
    have hone := tally_one (f := fun ip => ip.upCount i) hrange.2 hother
    rw [Inode.upCount_of_not_live fun hl => hl.2 hzero,
      Inode.upCount_of_not_live fun hl => hnotdir hl.1] at hone
    rw [upCount, upCount]
    omega
  have hshape : ∀ d, (t' d).type = .dir → Shaped d (t' d) := by
    intro d hd
    have hdne := hda d (by rw [hd]; simp)
    rw [hother d hdne] at hd ⊢
    exact h.shape d hd
  refine ⟨fun i hi => ?_, hshape, ?_, fun d de hd hde hi => ?_, fun i hi => ?_, fun d hd => ?_,
    fun i hi => ?_⟩
  · rw [hother i (hda i hi)] at hi
    exact h.range i hi
  · rw [hother _ hroot.symm]
    exact h.root
  · have hdne := hda d (by rw [hd]; simp)
    rw [hother d hdne] at hd hde
    have hdea : de.inum ≠ a := by
      intro heq
      have hpos := h.nameCount_pos hd hde
      rw [heq] at hpos
      omega
    rw [hother _ hdea]
    exact h.named d de hd hde hi
  · have hia := hda i (by rw [hi]; simp)
    rw [hother i hia] at hi ⊢
    have hpos := (h.range i (by rw [hi]; simp)).1
    rw [hnames i (by omega)]
    exact h.once i hi
  · have hdne := hda d (by rw [hd]; simp)
    rw [hother d hdne] at hd ⊢
    exact h.dead d hd
  · have hia := hda i hi
    rw [hother i hia] at hi ⊢
    have hpos := (h.range i hi).1
    rw [links_eq hshape (by omega), hnames i (by omega), hups i, ← links_eq h.shape (by omega)]
    exact h.exact i hi

end CowPaging
