import CowPaging.DirTree

/-!
# References to inodes

An inode in the cache is referenced by the files that are open on it, by the processes
that have it as their current directory, and, in the middle of a call, by the call
itself: `RefInv held s` says that the counts are right when the call holds the
references `held`. An inode without links is kept exactly as long as it is referenced.
Path lookup takes and drops references, and nothing else: what it finds is the pure
walk over the table.
-/

namespace CowPaging

open Bytes StateExcept SlotTable Tally
open Function (update_of_ne update_self)

/-! ### Who uses an inode -/

def FileEntry.uses (i : Nat) (f : FileEntry) : Nat := if f.type = .inode ∧ f.ip = i then 1 else 0

def cwdUses (i : Nat) (c : Option Nat) : Nat := if c = some i then 1 else 0

/-- How many open files and current directories inode `i` is. -/
def Fs.users (s : Fs) (i : Nat) : Nat :=
  tally NFILE (FileEntry.uses i) s.ftable + tally NPROC (cwdUses i) s.cwd

structure RefInv (held : List Nat) (s : Fs) : Prop where
  refs : ∀ i, s.ref i = s.users i + held.count i
  orphan : ∀ i, (s.inode i).type ≠ .free → (s.inode i).nlink = 0 →
    s.valid i = true ∧ 0 < s.ref i
  unread : ∀ i, (s.inode i).type = .free → s.valid i = true → s.ref i = 0
  opened : ∀ f, (s.ftable f).type = .inode →
    f < NFILE ∧ 1 ≤ (s.ftable f).ref ∧ (s.inode (s.ftable f).ip).type ≠ .free
  cwds : ∀ p d, s.cwd p = some d → p < NPROC ∧ (s.inode d).type = .dir

/-- Nothing but the state of the cache differs. -/
structure SameNames (s s' : Fs) : Prop where
  inode : s'.inode = s.inode
  files : s'.toFiles = s.toFiles
  cwd : s'.cwd = s.cwd

/-- Inodes without links are in use by a process. -/
def OrphansUsed (s : Fs) : Prop :=
  ∀ i, (s.inode i).type ≠ .free → (s.inode i).nlink = 0 → 0 < s.users i

variable {s s' s'' : Fs} {held : List Nat} {i d dp off : Nat} {name : Str} {E : Halt → Prop}

theorem SameNames.refl (s : Fs) : SameNames s s := ⟨rfl, rfl, rfl⟩

theorem SameNames.trans (h : SameNames s s') (h' : SameNames s' s'') : SameNames s s'' :=
  ⟨h'.inode.trans h.inode, h'.files.trans h.files, h'.cwd.trans h.cwd⟩

theorem SameNames.users (h : SameNames s s') (i : Nat) : s'.users i = s.users i := by
  rw [Fs.users, Fs.users, h.files, h.cwd]

theorem SameNames.orphansUsed (h : SameNames s s') (hk : OrphansUsed s) : OrphansUsed s' := by
  intro i
  rw [h.inode, h.users]
  exact hk i

theorem RefInv.orphansUsed (h : RefInv [] s) : OrphansUsed s := by
  intro i halloc hzero
  have hpos := (h.orphan i halloc hzero).2
  rwa [h.refs, List.count_nil, Nat.add_zero] at hpos

theorem RefInv.perm {held' : List Nat} (h : RefInv held s) (hp : held.Perm held') :
    RefInv held' s :=
  ⟨fun i => by rw [h.refs, hp.count_eq], h.orphan, h.unread, h.opened, h.cwds⟩

theorem RefInv.swap {a b : Nat} (h : RefInv (a :: b :: held) s) :
    RefInv (b :: a :: held) s := h.perm (List.Perm.swap b a held)

theorem RefInv.congr {held' : List Nat} (h : RefInv held s) (hsame : SameNames s s')
    (hrefs : ∀ i, s'.ref i = s.users i + held'.count i)
    (horphan : ∀ i, (s.inode i).type ≠ .free → (s.inode i).nlink = 0 →
      s'.valid i = true ∧ 0 < s'.ref i)
    (hunread : ∀ i, (s.inode i).type = .free → s'.valid i = true → s'.ref i = 0) :
    RefInv held' s' where
  refs i := by rw [hsame.users]; exact hrefs i
  orphan i := by rw [hsame.inode]; exact horphan i
  unread i := by rw [hsame.inode]; exact hunread i
  opened f := by rw [hsame.files, hsame.inode]; exact h.opened f
  cwds p d := by rw [hsame.cwd, hsame.inode]; exact h.cwds p d

/-! ### `iget`, `idup` and `ilock` -/

theorem count_cons_self_or (i j : Nat) (held : List Nat) :
    (i :: held).count j = held.count j + if j = i then 1 else 0 := by grind

theorem RefInv.take (h : RefInv held s) (hpos : 0 < s.ref i) :
    RefInv (i :: held) (s.setRef i (s.ref i + 1)) := by
  refine h.congr ⟨rfl, rfl, rfl⟩ (fun j => ?_) (fun j ha hz => ?_) (fun j hf hv => ?_)
  · rw [count_cons_self_or]
    by_cases hj : j = i
    · subst hj
      simp only [Fs.setRef, update_self, if_true]
      rw [h.refs j]
      omega
    · simp only [Fs.setRef, update_of_ne hj, if_neg hj]
      exact h.refs j
  · obtain ⟨hv, hpos'⟩ := h.orphan j ha hz
    refine ⟨hv, ?_⟩
    by_cases hj : j = i
    · subst hj
      simp only [Fs.setRef, update_self]
      omega
    · simp only [Fs.setRef, update_of_ne hj]
      exact hpos'
  · have hzero := h.unread j hf hv
    have hj : j ≠ i := by
      rintro rfl
      omega
    simp only [Fs.setRef, update_of_ne hj]
    exact hzero

theorem RefInv.load (h : RefInv held s) (hzero : s.ref i = 0) :
    RefInv (i :: held) ((s.setRef i 1).setValid i false) := by
  refine h.congr ⟨rfl, rfl, rfl⟩ (fun j => ?_) (fun j ha hz => ?_) (fun j hf hv => ?_)
  · rw [count_cons_self_or]
    by_cases hj : j = i
    · subst hj
      have hrefs := h.refs j
      simp only [Fs.setValid, Fs.setRef, update_self, if_true]
      omega
    · simp only [Fs.setValid, Fs.setRef, update_of_ne hj, if_neg hj]
      exact h.refs j
  · obtain ⟨hv, hpos⟩ := h.orphan j ha hz
    have hj : j ≠ i := by
      rintro rfl
      omega
    simp only [Fs.setValid, Fs.setRef, update_of_ne hj]
    exact ⟨hv, hpos⟩
  · by_cases hj : j = i
    · subst hj
      simp only [Fs.setValid, update_self, Bool.false_eq_true] at hv
    · simp only [Fs.setValid, Fs.setRef, update_of_ne hj] at hv ⊢
      exact h.unread j hf hv

theorem RefInv.iget (h : RefInv held s) (hE : E (.panic .igetNoInodes)) :
    wp (iget i) s (fun r s' => r = i ∧ SameNames s s' ∧ RefInv (i :: held) s') E := by
  unfold CowPaging.iget
  rw [wp_bind, wp_get]
  refine wp_ite (fun hpos => ?_) fun hzero => wp_ite (fun _ => hE) fun _ => ?_
  · exact ⟨rfl, ⟨rfl, rfl, rfl⟩, h.take hpos⟩
  · exact ⟨rfl, ⟨rfl, rfl, rfl⟩, h.load (by omega)⟩

theorem RefInv.idup (h : RefInv held s) (hpos : 0 < s.users i) :
    wp (idup i) s (fun r s' => r = i ∧ SameNames s s' ∧ RefInv (i :: held) s') E := by
  have href : 0 < s.ref i := by
    rw [h.refs]
    omega
  exact ⟨rfl, ⟨rfl, rfl, rfl⟩, h.take href⟩

theorem RefInv.ref_pos (h : RefInv held s) (hi : i ∈ held) : 0 < s.ref i := by grind [h.refs]

theorem RefInv.ilock (h : RefInv held s) (hi : i ∈ held)
    (hE : (s.inode i).type ≠ .free ∨ E (.panic .ilockNoType)) :
    wp (ilock i) s (fun _ s' => SameNames s s' ∧ RefInv held s' ∧ s'.valid i = true ∧
      (s.inode i).type ≠ .free) E := by
  have hpos := h.ref_pos hi
  unfold CowPaging.ilock
  rw [wp_bind, wp_get, if_neg (by omega)]
  refine wp_ite (fun hv => ?_) fun hv => wp_ite (fun hfree => ?_) fun halloc => ?_
  · refine ⟨SameNames.refl s, h, hv, fun hfree => ?_⟩
    have hzero := h.unread i hfree hv
    omega
  · exact hE.resolve_left fun halloc => halloc hfree
  · refine ⟨⟨rfl, rfl, rfl⟩, ?_, update_self _ _ _, halloc⟩
    refine h.congr ⟨rfl, rfl, rfl⟩ h.refs (fun j ha hz => ?_) (fun j hf hv' => ?_)
    · obtain ⟨hvj, hposj⟩ := h.orphan j ha hz
      refine ⟨?_, hposj⟩
      by_cases hj : j = i
      · subst hj
        exact update_self _ _ _
      · exact (update_of_ne hj _ _).trans hvj
    · have hj : j ≠ i := by
        rintro rfl
        exact halloc hf
      exact h.unread j hf ((update_of_ne hj _ _).symm.trans hv')

/-! ### `iput` -/

/-- The inode is freed by the next `iput`. -/
def Fs.Last (s : Fs) (i : Nat) : Prop :=
  s.valid i = true ∧ (s.inode i).nlink = 0 ∧ s.ref i = 1

instance (s : Fs) (i : Nat) : Decidable (s.Last i) := inferInstanceAs (Decidable (_ ∧ _ ∧ _))

/-- The state after `iput`. -/
def Fs.put (s : Fs) (i : Nat) : Fs :=
  if s.Last i then ((s.setInode i Inode.freed).setValid i false).setRef i 0
  else s.setRef i (s.ref i - 1)

theorem iput_eq (s : Fs) (i : Nat) : iput i s = .ok ((), s.put i) := by
  have hwp : wp (iput i) s (fun _ s' => s' = s.put i) fun _ => False := by
    unfold iput Fs.put
    rw [wp_bind, wp_get]
    refine wp_ite (fun hlast => ?_) fun hlast => ?_
    · rw [if_pos (show s.Last i from hlast)]
      simp only [wp_bind, wp_set, wp_modify, Fs.setRef, Fs.setValid, Fs.setInode, hlast.2.2]
      rfl
    · rw [if_neg (show ¬ s.Last i from hlast)]
      rfl
  obtain ⟨_, _, hok, rfl⟩ := exists_ok_of_wp hwp
  exact hok

theorem wp_iput {Q : Unit → Fs → Prop} : wp (iput i) s Q E ↔ Q () (s.put i) :=
  wp_of_ok (iput_eq s i)

theorem Fs.put_of_not_last (h : ¬ s.Last i) : s.put i = s.setRef i (s.ref i - 1) := if_neg h

theorem Fs.put_of_last (h : s.Last i) :
    s.put i = ((s.setInode i Inode.freed).setValid i false).setRef i 0 := if_pos h

theorem Fs.put_files (s : Fs) (i : Nat) : (s.put i).toFiles = s.toFiles ∧ (s.put i).cwd = s.cwd := by
  unfold Fs.put
  split <;> exact ⟨rfl, rfl⟩

theorem RefInv.drop (h : RefInv (i :: held) s) (hlast : ¬ s.Last i) :
    SameNames s (s.put i) ∧ RefInv held (s.put i) := by
  have hpos := h.ref_pos (List.mem_cons_self (a := i) (l := held))
  rw [Fs.put_of_not_last hlast]
  refine ⟨⟨rfl, rfl, rfl⟩, h.congr ⟨rfl, rfl, rfl⟩ (fun j => ?_) (fun j ha hz => ?_) (fun j hf hv => ?_)⟩
  · have hrefs := h.refs j
    rw [count_cons_self_or] at hrefs
    by_cases hj : j = i
    · subst hj
      rw [if_pos rfl] at hrefs
      simp only [Fs.setRef, update_self]
      omega
    · rw [if_neg hj] at hrefs
      simp only [Fs.setRef, update_of_ne hj]
      exact hrefs
  · obtain ⟨hv, hposj⟩ := h.orphan j ha hz
    refine ⟨hv, ?_⟩
    by_cases hj : j = i
    · subst hj
      have hne : s.ref j ≠ 1 := fun hone => hlast ⟨hv, hz, hone⟩
      simp only [Fs.setRef, update_self]
      omega
    · simp only [Fs.setRef, update_of_ne hj]
      exact hposj
  · have hzero := h.unread j hf hv
    have hj : j ≠ i := by
      rintro rfl
      omega
    simp only [Fs.setRef, update_of_ne hj]
    exact hzero

theorem RefInv.free (h : RefInv (i :: held) s) (hlast : s.Last i) :
    (s.inode i).type ≠ .free ∧ s.users i = 0 ∧ RefInv held (s.put i) := by
  have halloc : (s.inode i).type ≠ .free := by
    intro hfree
    have hzero := h.unread i hfree hlast.1
    have hone := hlast.2.2
    omega
  have hrefs := h.refs i
  rw [count_cons_self_or, if_pos rfl, hlast.2.2] at hrefs
  have husers : s.users i = 0 := by omega
  have hfiles : ∀ f, (s.ftable f).type = .inode → (s.ftable f).ip ≠ i := by
    intro f hf hip
    have hle := le_tally (f := FileEntry.uses i) (t := s.ftable) (h.opened f hf).1
    rw [FileEntry.uses, if_pos ⟨hf, hip⟩] at hle
    rw [Fs.users] at husers
    omega
  have hcwds : ∀ p, s.cwd p ≠ some i := by
    intro p hp
    have hle := le_tally (f := cwdUses i) (t := s.cwd) (h.cwds p i hp).1
    rw [cwdUses, if_pos hp] at hle
    rw [Fs.users] at husers
    omega
  have hother : ∀ j, j ≠ i → (s.put i).inode j = s.inode j ∧ (s.put i).valid j = s.valid j ∧
      (s.put i).ref j = s.ref j := by
    intro j hj
    rw [Fs.put_of_last hlast]
    exact ⟨update_of_ne hj _ _, update_of_ne hj _ _, update_of_ne hj _ _⟩
  have hself : (s.put i).inode i = (s.inode i).freed ∧ (s.put i).valid i = false ∧
      (s.put i).ref i = 0 := by
    rw [Fs.put_of_last hlast]
    exact ⟨update_self _ _ _, update_self _ _ _, update_self _ _ _⟩
  have husers' : ∀ j, (s.put i).users j = s.users j := by
    intro j
    rw [Fs.users, Fs.users, (s.put_files i).1, (s.put_files i).2]
  refine ⟨halloc, husers, ⟨fun j => ?_, fun j ha hz => ?_, fun j hf hv => ?_, fun f hf => ?_,
    fun p d hp => ?_⟩⟩
  · rw [husers' j]
    by_cases hj : j = i
    · subst hj
      rw [hself.2.2]
      omega
    · grind [h.refs, count_cons_self_or]
  · by_cases hj : j = i
    · subst hj
      rw [hself.1] at ha
      exact (ha rfl).elim
    · rw [(hother j hj).1] at ha hz
      rw [(hother j hj).2.1, (hother j hj).2.2]
      exact h.orphan j ha hz
  · by_cases hj : j = i
    · subst hj
      exact hself.2.2
    · rw [(hother j hj).1] at hf
      rw [(hother j hj).2.1] at hv
      rw [(hother j hj).2.2]
      exact h.unread j hf hv
  · rw [(s.put_files i).1] at hf ⊢
    rw [(hother _ (hfiles f hf)).1]
    exact h.opened f hf
  · rw [(s.put_files i).2] at hp
    have hd : d ≠ i := by
      rintro rfl
      exact hcwds p hp
    rw [(hother d hd).1]
    exact h.cwds p d hp

theorem RefInv.drop_used (h : RefInv (i :: held) s) (hk : OrphansUsed s) :
    SameNames s (s.put i) ∧ RefInv held (s.put i) := by
  refine h.drop fun hlast => ?_
  obtain ⟨halloc, husers, -⟩ := h.free hlast
  have hpos := hk i halloc hlast.2.1
  omega

/-! ### Path lookup -/

/-- What `dirlookup` finds. -/
def lookup (t : Table) (d : Nat) (name : Str) : Option Nat :=
  if (t d).type = .dir then (findDirent name (t d).entries).map Prod.fst else none

/-- What `namex` finds from inode `i` on. -/
def walkNames (t : Table) (parent : Bool) : Nat → List Str → Option (Nat × Str)
  | i, [] => if parent then none else some (i, [])
  | i, name :: rest =>
    if (t i).type ≠ .dir then none
    else if parent = true ∧ rest = [] then some (i, name)
    else
      match lookup t i name with
      | none => none
      | some next => walkNames t parent next rest

/-- The references with the one that was found. -/
def holding {α : Type} (r : Option (Nat × α)) (held : List Nat) : List Nat :=
  match r with
  | none => held
  | some x => x.1 :: held

theorem RefInv.dirlookup (h : RefInv held s) (hdir : (s.inode dp).type = .dir)
    (hE : E (.panic .igetNoInodes)) :
    wp (dirlookup dp name) s (fun r s' => r = findDirent name (s.inode dp).entries ∧
      SameNames s s' ∧ RefInv (holding r held) s') E := by
  unfold CowPaging.dirlookup
  rw [wp_bind, wp_get, if_neg (not_not.2 hdir)]
  cases hfind : findDirent name (s.inode dp).entries with
  | none => exact ⟨rfl, SameNames.refl s, h⟩
  | some r =>
    simp only [wp_bind, wp_pure]
    refine wp_conseq (h.iget hE) ?_
    rintro _ s' ⟨rfl, hsame, h'⟩
    exact ⟨rfl, hsame, h'⟩

/-- A set of allocated inodes that lookup does not leave. -/
structure Closed (t : Table) (G : Nat → Prop) : Prop where
  alloc : ∀ i, G i → (t i).type ≠ .free
  lookup : ∀ d name i, G d → lookup t d name = some i → G i

variable {G : Nat → Prop} {parent : Bool} {elems : List Str}

theorem Closed.walkNames {r : Nat × Str} {t : Table} (hG : Closed t G) (hi : G i)
    (hr : walkNames t parent i elems = some r) : G r.1 := by
  induction elems generalizing i with
  | nil => grind [walkNames]
  | cons name rest ih =>
    rw [walkNames] at hr
    split at hr
    · exact (Option.some_ne_none r hr.symm).elim
    · grind [hG.lookup]

theorem walkNames_parent_dir {r : Nat × Str} {t : Table} (hr : walkNames t true i elems = some r) :
    (t r.1).type = .dir := by
  induction elems generalizing i with
  | nil => exact (Option.some_ne_none r hr.symm).elim
  | cons name rest ih => grind [walkNames]

theorem namexFrom_spec (hk : OrphansUsed s) (h : RefInv (i :: held) s) (hG : Closed s.inode G)
    (hget : E (.panic .igetNoInodes)) (hi : G i ∨ E (.panic .ilockNoType)) :
    wp (namexFrom parent i elems) s (fun r s' => r = walkNames s.inode parent i elems ∧
      SameNames s s' ∧ RefInv (holding r held) s') E := by
  induction elems generalizing i s with
  | nil =>
    rw [namexFrom, walkNames]
    cases parent with
    | false => exact ⟨rfl, SameNames.refl s, h⟩
    | true =>
      simp only [if_true, wp_bind, wp_iput, wp_pure]
      exact ⟨trivial, h.drop_used hk⟩
  | cons name rest ih =>
    rw [namexFrom, wp_bind, walkNames]
    refine wp_conseq (h.ilock List.mem_cons_self (hi.imp_left (hG.alloc i))) ?_
    rintro - s1 ⟨hsame1, h1, -, halloc⟩
    rw [wp_bind, wp_get, hsame1.inode]
    by_cases hdir : (s.inode i).type = .dir
    · rw [if_neg (not_not.2 hdir), if_neg (not_not.2 hdir)]
      by_cases hstop : parent = true ∧ rest = []
      · rw [if_pos hstop, if_pos hstop]
        exact ⟨rfl, hsame1, h1⟩
      · rw [if_neg hstop, if_neg hstop, wp_bind]
        refine wp_conseq (h1.dirlookup (by rw [hsame1.inode]; exact hdir) hget) ?_
        rintro r s2 ⟨hr, hsame2, h2⟩
        have hlookup : lookup s.inode i name = r.map Prod.fst := by
          rw [lookup, if_pos hdir, hr, hsame1.inode]
        have hsame := hsame1.trans hsame2
        rw [hlookup]
        cases r with
        | none =>
          simp only [wp_bind, wp_iput, wp_pure]
          obtain ⟨hsame3, h3⟩ := h2.drop_used (hsame.orphansUsed hk)
          exact ⟨rfl, hsame.trans hsame3, h3⟩
        | some r =>
          simp only [wp_bind, wp_iput]
          obtain ⟨hsame3, h3⟩ := h2.swap.drop_used (hsame.orphansUsed hk)
          have hsame' := hsame.trans hsame3
          have hnext : G r.1 ∨ E (.panic .ilockNoType) :=
            hi.imp_left fun hGi => hG.lookup i name r.1 hGi hlookup
          refine wp_conseq (ih (hsame'.orphansUsed hk) h3 (by rw [hsame'.inode]; exact hG) hnext) ?_
          rintro r' s4 ⟨hr', hsame4, h4⟩
          rw [hsame'.inode] at hr'
          exact ⟨hr', hsame'.trans hsame4, h4⟩
    · rw [if_pos hdir, if_pos hdir]
      simp only [wp_bind, wp_iput, wp_pure]
      obtain ⟨hsame2, h2⟩ := h1.drop_used (hsame1.orphansUsed hk)
      exact ⟨trivial, hsame1.trans hsame2, h2⟩

/-- Where the lookup of a path starts. -/
def Fs.origin (s : Fs) (p : Nat) (path : Str) : Option Nat :=
  if path.head? = some slash then some ROOTINO else s.cwd p

theorem RefInv.users_cwd (h : RefInv held s) {p : Nat} (hp : s.cwd p = some d) :
    0 < s.users d := by
  have hle := le_tally (f := cwdUses d) (t := s.cwd) (h.cwds p d hp).1
  rw [cwdUses, if_pos hp] at hle
  rw [Fs.users]
  omega

theorem namex_spec {p : Nat} {path : Str} (hk : OrphansUsed s) (h : RefInv held s)
    (hG : Closed s.inode G) (hget : E (.panic .igetNoInodes)) (hd : s.origin p path = some d)
    (hi : G d ∨ E (.panic .ilockNoType)) :
    wp (namex p path parent) s (fun r s' =>
      r = walkNames s.inode parent d (pathElems path.length path) ∧
      SameNames s s' ∧ RefInv (holding r held) s') E := by
  have hrest : ∀ s', SameNames s s' → RefInv (d :: held) s' →
      wp (namexFrom parent d (pathElems path.length path)) s' (fun r s' =>
        r = walkNames s.inode parent d (pathElems path.length path) ∧
        SameNames s s' ∧ RefInv (holding r held) s') E := by
    intro s' hsame h'
    refine wp_conseq (namexFrom_spec (hsame.orphansUsed hk) h' (by rw [hsame.inode]; exact hG) hget hi) ?_
    rintro r s2 ⟨hr, hsame2, h2⟩
    rw [hsame.inode] at hr
    exact ⟨hr, hsame.trans hsame2, h2⟩
  unfold namex
  rw [wp_bind, wp_get]
  rw [Fs.origin] at hd
  dsimp only
  by_cases habs : path.head? = some slash
  · grind [wp_bind, wp_conseq, h.iget]
  · rw [if_neg habs] at hd ⊢
    rw [hd]
    dsimp only
    rw [wp_bind]
    refine wp_conseq (h.idup (h.users_cwd hd)) ?_
    rintro _ s1 ⟨rfl, hsame, h1⟩
    exact hrest s1 hsame h1

end CowPaging
