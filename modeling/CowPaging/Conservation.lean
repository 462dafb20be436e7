import CowPaging.Pipes

/-!
# No page is lost and none is used twice

Without memory pressure every page that boot gave to the allocator is in one place at
a time: on the free list, in the memory of processes, in the directory and tables of
one process or of the kernel, a kernel stack, a boot stack or an open pipe. The roles
of `Ownership` account for the address spaces; the ledger lists what the kernel keeps
for itself, and here it grows and shrinks with the pipes that are open.
-/

namespace CowPaging

open Bytes StateExcept SlotTable
open Function (update_of_ne update_self update)

/-! ### The file table -/

/-- File `i` is the write end (`w`) or the read end of the pipe in page `f`. -/
def IsEnd (s : System) (i f : Nat) (w : Bool) : Prop :=
  (s.ftable i).type = .pipe ∧ (s.ftable i).pipe = f ∧ (s.ftable i).writable = w

/-- An end of a pipe is open while one file in use stands for it. -/
structure FilesInv (s : System) : Prop where
  inUse : ∀ i, (s.ftable i).type = .pipe → i < NFILE ∧ 1 ≤ (s.ftable i).ref
  ends : ∀ f w, (s.pipe f).isOpen w = true ↔ ∃ i, IsEnd s i f w
  only : ∀ i j f w, IsEnd s i f w → IsEnd s j f w → i = j

variable {s s' : System} {i j f : Nat} {w : Bool}

theorem isEnd_setFile {g : FileEntry → FileEntry} (hij : j ≠ i) :
    IsEnd (s.setFile i g) j f w ↔ IsEnd s j f w := by
  simp only [IsEnd, System.setFile, Files.setFile, update_of_ne hij]

theorem isEnd_setFile_self {g : FileEntry → FileEntry} :
    IsEnd (s.setFile i g) i f w ↔
      (g (s.ftable i)).type = .pipe ∧ (g (s.ftable i)).pipe = f ∧
        (g (s.ftable i)).writable = w := by
  simp only [IsEnd, System.setFile, Files.setFile, update_self]

theorem FilesInv.congr (h : FilesInv s) (hpipe : s'.pipe = s.pipe)
    (hends : ∀ i f w, IsEnd s' i f w ↔ IsEnd s i f w)
    (huse : ∀ i, (s'.ftable i).type = .pipe → i < NFILE ∧ 1 ≤ (s'.ftable i).ref) :
    FilesInv s' where
  inUse := huse
  ends f w := by
    rw [hpipe, h.ends]
    exact exists_congr fun i => (hends i f w).symm
  only i j f w hi hj := h.only i j f w ((hends i f w).1 hi) ((hends j f w).1 hj)

theorem FilesInv.setRef (h : FilesInv s) {n : Nat} (hn : (s.ftable i).type = .pipe → 1 ≤ n) :
    FilesInv (s.setFile i fun e => { e with ref := n }) := by
  refine h.congr rfl (fun j f w => ?_) fun j hj => ?_
  · by_cases hji : j = i
    · subst hji
      rw [isEnd_setFile_self]
      rfl
    · exact isEnd_setFile hji
  · by_cases hji : j = i
    · subst hji
      simp only [System.setFile, Files.setFile, update_self] at hj ⊢
      exact ⟨(h.inUse j hj).1, hn hj⟩
    · simp only [System.setFile, Files.setFile, update_of_ne hji] at hj ⊢
      exact h.inUse j hj

theorem FilesInv.setPlain (h : FilesInv s) {g : FileEntry → FileEntry}
    (hold : (s.ftable i).type ≠ .pipe) (hnew : (g (s.ftable i)).type ≠ .pipe) :
    FilesInv (s.setFile i g) := by
  refine h.congr rfl (fun j f w => ?_) fun j hj => ?_
  · by_cases hji : j = i
    · subst hji
      rw [isEnd_setFile_self]
      exact iff_of_false (fun he => hnew he.1) fun he => hold he.1
    · exact isEnd_setFile hji
  · by_cases hji : j = i
    · subst hji
      simp only [System.setFile, Files.setFile, update_self] at hj
      exact (hnew hj).elim
    · simp only [System.setFile, Files.setFile, update_of_ne hji] at hj ⊢
      exact h.inUse j hj

/-! ### Opening and closing ends -/

/-- The state after the last `close` of a file that is an end of a pipe, before a page is
    given back. -/
def System.closed (s : System) (i f : Nat) (w : Bool) : System :=
  (s.setFile i fun e => { e with ref := 0, type := .none }).setPipe f fun pi => pi.close w

theorem isEnd_closed {k g : Nat} {w' : Bool} :
    IsEnd (s.closed i f w) k g w' ↔ k ≠ i ∧ IsEnd s k g w' := by
  by_cases hki : k = i
  · subst hki
    simp [IsEnd, System.closed, System.setPipe, System.setFile, Files.setFile]
  · simp only [ne_eq, hki, not_false_eq_true, true_and]
    exact isEnd_setFile (g := fun e => { e with ref := 0, type := .none }) hki

theorem isOpen_closed {g : Nat} {w' : Bool} : ((s.closed i f w).pipe g).isOpen w' =
    if g = f ∧ w' = w then false else (s.pipe g).isOpen w' := by
  by_cases hg : g = f
  · subst hg
    simp only [System.closed, System.setPipe, update_self, true_and]
    exact Pipe.isOpen_close _ _ _
  · simp only [System.closed, System.setPipe, update_of_ne hg, hg, false_and, if_false]
    rfl

theorem FilesInv.closed (h : FilesInv s) (he : IsEnd s i f w) : FilesInv (s.closed i f w) where
  inUse k hk := by
    have hki : k ≠ i := by
      rintro rfl
      simp [System.closed, System.setPipe, System.setFile, Files.setFile] at hk
    have hsame : (s.closed i f w).ftable k = s.ftable k := by
      simp only [System.closed, System.setPipe, System.setFile, Files.setFile, update_of_ne hki]
    rw [hsame] at hk ⊢
    exact h.inUse k hk
  ends g w' := by
    rw [isOpen_closed]
    by_cases hgw : g = f ∧ w' = w
    · obtain ⟨rfl, rfl⟩ := hgw
      simp only [and_self, if_true, Bool.false_eq_true, false_iff]
      rintro ⟨k, hk⟩
      obtain ⟨hki, hk'⟩ := isEnd_closed.1 hk
      exact hki (h.only k i g w' hk' he)
    · rw [if_neg hgw, h.ends]
      refine exists_congr fun k => ?_
      rw [isEnd_closed]
      refine ⟨fun hk => ⟨?_, hk⟩, fun hk => hk.2⟩
      rintro rfl
      exact hgw ⟨hk.2.1.symm.trans he.2.1, hk.2.2.symm.trans he.2.2⟩
  only k l g w' hk hl := h.only k l g w' (isEnd_closed.1 hk).2 (isEnd_closed.1 hl).2

/-- The state after `pipealloc` filled in a pipe in page `f` with ends `i` and `j`. -/
def System.piped (s : System) (i j f : Nat) : System :=
  ((s.setPipe f fun _ => { readopen := true, writeopen := true }).setFile i fun e =>
    { e with type := .pipe, readable := true, writable := false, pipe := f }).setFile j fun e =>
      { e with type := .pipe, readable := false, writable := true, pipe := f }

theorem isEnd_piped (hij : i ≠ j) (hi : (s.ftable i).type ≠ .pipe)
    (hj : (s.ftable j).type ≠ .pipe) {k g : Nat} {w' : Bool} :
    IsEnd (s.piped i j f) k g w' ↔
      (g = f ∧ k = if w' then j else i) ∨ IsEnd s k g w' := by
  by_cases hkj : k = j
  · subst hkj
    have hno : ¬ IsEnd s k g w' := fun he => hj he.1
    rw [System.piped, isEnd_setFile_self]
    cases w' with
    | false => simp [hno, Ne.symm hij]
    | true => simp [hno, eq_comm]
  · rw [System.piped, isEnd_setFile hkj]
    by_cases hki : k = i
    · grind [IsEnd, isEnd_setFile_self]
    · rw [isEnd_setFile hki]
      have hno : ¬ (g = f ∧ k = if w' then j else i) := by grind
      simp only [hno, false_or]
      rfl

theorem isOpen_piped {g : Nat} {w' : Bool} : ((s.piped i j f).pipe g).isOpen w' =
    if g = f then true else (s.pipe g).isOpen w' := by
  by_cases hg : g = f
  · subst hg
    simp only [System.piped, System.setPipe, System.setFile, Files.setFile, update_self, if_true]
    cases w' <;> rfl
  · simp only [System.piped, System.setPipe, System.setFile, Files.setFile, update_of_ne hg, hg, if_false]

theorem FilesInv.piped (h : FilesInv s) (hij : i ≠ j) (hi : (s.ftable i).type ≠ .pipe)
    (hj : (s.ftable j).type ≠ .pipe) (huse : i < NFILE ∧ 1 ≤ (s.ftable i).ref)
    (huse' : j < NFILE ∧ 1 ≤ (s.ftable j).ref) (hf : ∀ w, (s.pipe f).isOpen w = false) :
    FilesInv (s.piped i j f) := by
  have hfresh : ∀ k w, ¬ IsEnd s k f w := by
    intro k w hk
    have hopen := (h.ends f w).2 ⟨k, hk⟩
    rw [hf w] at hopen
    exact Bool.false_ne_true hopen
  refine ⟨fun k hk => ?_, fun g w => ?_, fun k l g w hk hl => ?_⟩
  · by_cases hkj : k = j
    · subst hkj
      simp only [System.piped, System.setFile, Files.setFile, update_self, System.setPipe,
        update_of_ne (Ne.symm hij)]
      exact huse'
    · by_cases hki : k = i
      · subst hki
        simp only [System.piped, System.setFile, Files.setFile, update_of_ne hkj, update_self]
        exact huse
      · simp only [System.piped, System.setFile, Files.setFile, update_of_ne hkj,
          update_of_ne hki] at hk ⊢
        exact h.inUse k hk
  · rw [isOpen_piped]
    by_cases hg : g = f
    · subst hg
      simp only [if_true, true_iff]
      exact ⟨if w then j else i, (isEnd_piped hij hi hj).2 (.inl ⟨rfl, rfl⟩)⟩
    · rw [if_neg hg, h.ends]
      refine exists_congr fun k => ?_
      rw [isEnd_piped hij hi hj]
      simp only [hg, false_and, false_or]
  · rcases (isEnd_piped hij hi hj).1 hk with ⟨rfl, hk'⟩ | hk' <;>
      rcases (isEnd_piped hij hi hj).1 hl with ⟨hg, hl'⟩ | hl'
    · exact hk'.trans hl'.symm
    · exact (hfresh l w hl').elim
    · subst hg
      exact (hfresh k w hk').elim
    · exact h.only k l g w hk' hl'

/-! ### The pages of pipes -/

section

variable [KernelImage] {mode : Mode} {own : Owners} {k k' : Kernel} {K : Kept}
  {pipes l r rest : List Nat} {n : Nat}

/-- No memory pressure, and the kernel keeps the pages `K` and those of the open pipes. -/
def Mode.accounting (K : Kept) (pipes : List Nat) : Mode :=
  { Mode.plenty with kept := some { K with pages := K.pages ++ pipes } }

theorem KInv.books (h : KInv (Mode.accounting K pipes) own k) :
    Ledger { K with pages := K.pages ++ pipes } own k := h.ledger _ rfl

theorem Inv.recount {att : Attach} {pages pages' : Option Kept}
    (h : Inv { mode with kept := pages } own att k) : Inv { mode with kept := pages' } own att k :=
  ⟨h.frames, h.tables, h.maps, h.procs, h.unshared, h.idle, h.resident, h.slots⟩

theorem KInv.account (h : KInv Mode.plenty own k) (hl : Ledger K own k) :
    KInv (Mode.accounting K []) own k where
  inv := h.inv.recount
  kstack := h.kstack
  attached := h.attached
  above := h.above
  settled := h.settled
  ledger K' hK := by
    rw [← Option.some.inj hK, List.append_nil]
    exact hl

theorem KInv.takePipe (h : KInv (Mode.accounting K pipes) own k) (hlist : k.freelist = f :: rest) :
    f ∉ pipes ∧ ∃ own', KInv (Mode.accounting K (pipes ++ [f])) own'
      { k with freelist := rest, numFreePages := n } := by
  obtain ⟨hfree, hinv⟩ := h.inv.pop (n := n) hlist
  have hne : ∀ g, own g ≠ .free → g ≠ f := by
    rintro g hg rfl
    exact hg hfree
  refine ⟨fun hmem => ?_, update own f .held, hinv.recount, ?_, ?_, h.above, h.settled, ?_⟩
  · have hheld := (h.books.held f).2 (.inr (List.mem_append_right _ hmem))
    rw [hfree] at hheld
    cases hheld
  · grind [h.kstack, Function.update_apply]
  · intro d hd
    have hdf : d ≠ f := by grind
    rw [update_of_ne hdf] at hd
    exact h.attached d hd
  · intro K' hK
    have hl : Ledger { K with pages := K.pages ++ pipes ++ [f] } (update own f .held)
        { k with freelist := rest, numFreePages := n } :=
      h.books.take (.inl hfree) (fun _ _ => rfl) ⟨fun _ => rfl, rfl, rfl, rfl⟩
    rw [← Option.some.inj hK, ← List.append_assoc]
    exact hl

theorem Ledger.release {d : Nat} (h : Ledger ⟨d, l ++ f :: r⟩ own k) :
    Ledger ⟨d, l ++ r⟩ (Function.update own f .free) (k.freed f) := by
  have hf : f ∈ l ++ f :: r := List.mem_append_right _ List.mem_cons_self
  have hout := h.apart f hf
  have hdf : d ≠ f := fun heq => hout (Or.inl heq.symm)
  have hdir : ∀ g, InDir (k.freed f) d g ↔ InDir k d g :=
    InDir.congr (update_of_ne hdf _ _)
  have hperm : (l ++ f :: r).Perm (f :: (l ++ r)) := List.perm_middle
  obtain ⟨hfresh, hnodup⟩ := List.nodup_cons.1 (hperm.nodup_iff.1 h.nodup)
  refine ⟨fun g hlo hhi => ?_, fun g => ?_, hnodup, fun g hg => ?_, fun g p hg => ?_⟩
  · by_cases hgf : g = f
    · subst hgf
      rw [update_self]
      simp
    · rw [update_of_ne hgf]
      exact h.managed g hlo hhi
  · rw [hdir]
    by_cases hgf : g = f
    · subst hgf
      rw [update_self]
      exact iff_of_false (by simp) fun hor => hor.elim hout hfresh
    · rw [update_of_ne hgf, h.held g]
      exact or_congr_right ((hperm.mem_iff).trans (by simp [hgf]))
  · rw [hdir]
    exact h.apart g (hperm.mem_iff.2 (List.mem_cons_of_mem _ hg))
  · have hgf : g ≠ f := by
      rintro rfl
      rw [update_self] at hg
      exact Owner.noConfusion hg
    rw [update_of_ne hgf] at hg
    exact h.kstacks g p hg

theorem KInv.givePipe (h : KInv (Mode.accounting K pipes) own k) (hf : f ∈ pipes) :
    kfree f k = .ok ((), k.freed f) ∧ ∃ own' pipes', (∀ g, g ∈ pipes' ↔ g ≠ f ∧ g ∈ pipes) ∧
      KInv (Mode.accounting K pipes') own' (k.freed f) := by
  have hheld := (h.books.held f).2 (.inr (List.mem_append_right _ hf))
  have hne : ∀ g, own g ≠ .held → g ≠ f := by
    rintro g hg rfl
    exact hg hheld
  obtain ⟨l, r, rfl⟩ := List.append_of_mem hf
  have hl := h.books
  rw [← List.append_assoc] at hl
  have hfresh := (List.nodup_cons.1 (List.perm_middle.nodup_iff.1 hl.nodup)).1
  refine ⟨kfree_eq h.inv.frames (by rw [hheld]; simp), update own f .free, l ++ r,
    fun g => ?_, ?_, ?_, ?_, ?_, h.settled, ?_⟩
  · grind
  · exact (h.inv.freed (by rw [hheld]; trivial) (by rw [hheld]; simp) (by rw [hheld]; simp)).recount
  · intro p hp hused
    have hk := h.kstack p hp hused
    rwa [update_of_ne (hne _ (by
      show own (k.proc p).kstack ≠ .held
      rw [hk]
      simp))]
  · intro d hd
    have hdf : d ≠ f := by grind
    rw [update_of_ne hdf] at hd
    exact h.attached d hd
  · intro p d z v hatt hz hv
    have hsame : SameMaps own k (k.freed f) := fun g hg =>
      update_of_ne (hne g (by rintro heq; rw [heq] at hg; exact hg)) _ _
    have hv20 : v < 2 ^ 20 := by
      simp only [UPAGES, KERNBASE, PGSIZE] at hv
      omega
    rw [entry, hsame.pte h.inv.tables (h.inv.procs.dir p d z hatt) hv20]
    exact h.above p d z v hatt hz hv
  · intro K' hK
    have hrel := hl.release
    rw [← Option.some.inj hK, ← List.append_assoc]
    exact hrel

/-! ### The calls keep the books -/

/-- The books of the system are right. -/
structure Accounts (K : Kept) (own : Owners) (pipes : List Nat) (s : System) : Prop where
  kinv : KInv (Mode.accounting K pipes) own s.kernel
  counted : Counted s.kernel
  listed : ∀ f, f ∈ pipes ↔ ∃ w, (s.pipe f).isOpen w = true
  files : FilesInv s

/-- The books are right, and the processes are those of `k₀`. -/
structure Balanced (K : Kept) (k₀ : Kernel) (s : System) : Prop where
  accounts : ∃ own pipes, Accounts K own pipes s
  proc : s.kernel.proc = k₀.proc
  initproc : s.kernel.initproc = k₀.initproc

variable {k₀ : Kernel} {p fd ip : Nat}

theorem Balanced.files (h : Balanced K k₀ s) (hfiles : FilesInv s → FilesInv s')
    (hpipe : s'.pipe = s.pipe) (hkernel : s'.kernel = s.kernel) : Balanced K k₀ s' := by
  obtain ⟨own, pipes, hacc⟩ := h.accounts
  refine ⟨⟨own, pipes, ?_, ?_, ?_, hfiles hacc.files⟩, ?_, ?_⟩
  · rw [hkernel]
    exact hacc.kinv
  · rw [hkernel]
    exact hacc.counted
  · rw [hpipe]
    exact hacc.listed
  · rw [hkernel]
    exact h.proc
  · rw [hkernel]
    exact h.initproc

theorem Balanced.setOfile (h : Balanced K k₀ s) (p fd : Nat) (x : Option Nat) :
    Balanced K k₀ (s.setOfile p fd x) :=
  h.files (fun hf => ⟨hf.inUse, hf.ends, hf.only⟩) rfl rfl

theorem stable_onFiles {α : Type} {m : FilesM α} (h : ∀ s : System, FilesInv s →
    wp m s.toFiles (fun _ t => FilesInv { s with toFiles := t }) fun _ => True) :
    Stable (Balanced K k₀) (onFiles m) where
  keeps s hs := by
    obtain ⟨own, pipes, hacc⟩ := hs.accounts
    rw [onFiles, wp_zoom]
    exact wp_conseq (h s hacc.files) fun _ t ht => hs.files (fun _ => ht) rfl rfl

theorem stable_setOfile (p fd : Nat) (x : Option Nat) :
    Stable (Balanced K k₀) (modify fun s => s.setOfile p fd x : Sys PUnit) :=
  stable_modify fun _ hs => hs.setOfile p fd x

/-- `filealloc` finds an unused file, which is no pipe, and marks it used. -/
theorem filealloc_spec (h : Balanced K k₀ s) :
    wp (onFiles filealloc) s (fun r s' => Balanced K k₀ s' ∧ ∀ i, r = some i →
      i < NFILE ∧ (s.ftable i).ref = 0 ∧ (s.ftable i).type ≠ .pipe ∧
      s' = s.setFile i fun e => { e with ref := 1 }) fun _ => True := by
  rw [onFiles, wp_zoom, filealloc, wp_bind, wp_get]
  cases hslot : firstSlot NFILE fun i => decide ((s.ftable i).ref = 0) with
  | none => exact ⟨h, fun i hi => (Option.some_ne_none i hi.symm).elim⟩
  | some i =>
    obtain ⟨hi, href⟩ := firstSlot_some hslot
    simp only [decide_eq_true_eq] at href
    obtain ⟨own, pipes, hacc⟩ := h.accounts
    have htype : (s.ftable i).type ≠ .pipe := by
      intro ht
      have hpos := (hacc.files.inUse i ht).2
      omega
    simp only [wp_bind, wp_set, wp_pure]
    refine ⟨h.files (fun hf => hf.setRef fun ht => (htype ht).elim) rfl rfl, ?_⟩
    rintro j hj
    rw [← Option.some.inj hj]
    exact ⟨hi, href, htype, rfl⟩

omit [KernelImage] in
theorem FilesInv.setOfile (h : FilesInv s) (p fd : Nat) (x : Option Nat) :
    FilesInv (s.setOfile p fd x) := ⟨h.inUse, h.ends, h.only⟩

omit [KernelImage] in
theorem FilesInv.filedup (h : FilesInv s) (i : Nat) :
    wp (filedup i) s.toFiles (fun _ t => FilesInv { s with toFiles := t }) fun _ => True := by
  rw [CowPaging.filedup, wp_bind, wp_get]
  refine wp_ite (fun _ => trivial) fun _ => ?_
  rw [wp_set]
  exact h.setRef fun _ => Nat.le_add_left 1 _

omit [KernelImage] in
theorem FilesInv.fdalloc (h : FilesInv s) (p f : Nat) :
    wp (fdalloc p f) s.toFiles (fun _ t => FilesInv { s with toFiles := t }) fun _ => True := by
  rw [CowPaging.fdalloc, wp_bind, wp_get]
  cases firstSlot NOFILE fun fd => (s.ofile p fd).isNone with
  | none => exact h
  | some fd => exact h.setOfile p fd (some f)

/-- The last file of an end is closed. When the other end is closed too, the page of the
    pipe goes back. -/
theorem Balanced.pipeclose (h : Balanced K k₀ s) (he : IsEnd s i f w) :
    wp (pipeclose f w) (s.setFile i fun e => { e with ref := 0, type := .none })
      (fun _ s' => Balanced K k₀ s') fun _ => True := by
  obtain ⟨own, pipes, hacc⟩ := h.accounts
  have hfiles := hacc.files.closed he
  have hopen : (s.pipe f).isOpen w = true := (hacc.files.ends f w).2 ⟨i, he⟩
  unfold CowPaging.pipeclose
  simp only [wp_bind, wp_modify, wp_get]
  refine wp_ite (fun hboth => ?_) fun hsome => ?_
  · -- both ends are closed now
    have hclosed : ∀ w', ((s.closed i f w).pipe f).isOpen w' = false := by
      intro w'
      cases w' with
      | false => exact hboth.1
      | true => exact hboth.2
    have hf : f ∈ pipes := (hacc.listed f).2 ⟨w, hopen⟩
    obtain ⟨hfree, own', pipes', hpipes', hkinv'⟩ := hacc.kinv.givePipe hf
    have hcount := wp_ok ((counted_kfree f).keeps s.kernel hacc.counted) hfree
    rw [onKernel, wp_zoom]
    refine (wp_of_ok hfree).2 ⟨⟨own', pipes', hkinv', hcount, fun g => ?_, ?_⟩, h.proc, h.initproc⟩
    · show g ∈ pipes' ↔ ∃ w', ((s.closed i f w).pipe g).isOpen w' = true
      rw [hpipes']
      by_cases hg : g = f
      · subst hg
        simp [hclosed]
      · simp only [ne_eq, hg, not_false_eq_true, true_and, hacc.listed, isOpen_closed, false_and,
          if_false]
    · exact ⟨hfiles.inUse, hfiles.ends, hfiles.only⟩
  · -- the other end keeps the pipe
    rw [wp_pure]
    refine ⟨⟨own, pipes, hacc.kinv, hacc.counted, fun g => ?_, hfiles⟩, h.proc, h.initproc⟩
    show g ∈ pipes ↔ ∃ w', ((s.closed i f w).pipe g).isOpen w' = true
    by_cases hg : g = f
    · subst hg
      refine iff_of_true ((hacc.listed g).2 ⟨w, hopen⟩) ?_
      by_contra hno
      have hclosed : ∀ w', ((s.closed i g w).pipe g).isOpen w' = false := fun w' =>
        Bool.not_eq_true _ ▸ fun hw => hno ⟨w', hw⟩
      exact hsome ⟨hclosed false, hclosed true⟩
    · simp only [hacc.listed, isOpen_closed, hg, false_and, if_false]

theorem stable_fileclose (i : Nat) : Stable (Balanced K k₀) (fileclose i) where
  keeps s hs := by
    rw [fileclose, wp_bind, onFiles, wp_zoom, filedrop, wp_bind, wp_get]
    refine wp_ite (fun _ => trivial) fun hpos => wp_ite (fun hmany => ?_) fun _ => ?_
    · simp only [wp_bind, wp_set, wp_pure]
      exact hs.files (fun hf => hf.setRef fun _ => by omega) rfl rfl
    · simp only [wp_bind, wp_set, wp_pure]
      cases htype : (s.ftable i).type with
      | pipe => exact hs.pipeclose ⟨htype, rfl, rfl⟩
      | none =>
        exact hs.files (fun hf => hf.setPlain (by rw [htype]; simp) (by simp)) rfl rfl
      | inode =>
        exact hs.files (fun hf => hf.setPlain (by rw [htype]; simp) (by simp)) rfl rfl

theorem stable_fdalloc (p f : Nat) : Stable (Balanced K k₀) (onFiles (fdalloc p f)) :=
  stable_onFiles fun _ hs => hs.fdalloc p f

omit [KernelImage] in
theorem kalloc_noEvict (k : Kernel) :
    wp (kalloc noEvict) k (fun r k' => ∃ f rest, k.freelist = f :: rest ∧ r = some f ∧
      k' = { k with freelist := rest, numFreePages := decr32 k.numFreePages }) fun _ => True := by
  cases hlist : k.freelist with
  | nil =>
    unfold kalloc
    rw [wp_bind, wp_popFree_nil hlist]
    exact trivial
  | cons f rest => exact (wp_of_ok (kalloc_cons hlist)).2 ⟨f, rest, rfl, rfl, rfl⟩

theorem stable_pipealloc : Stable (Balanced K k₀) (pipealloc noEvict) where
  keeps s hs := by
    unfold pipealloc
    rw [wp_bind]
    refine wp_conseq (filealloc_spec hs) ?_
    rintro r s1 ⟨hs1, hr⟩
    cases r with
    | none => exact hs1
    | some f0 =>
      obtain ⟨hlt0, href0, htype0, heq1⟩ := hr f0 rfl
      simp only [wp_bind]
      refine wp_conseq (filealloc_spec hs1) ?_
      rintro r s2 ⟨hs2, hr⟩
      cases r with
      | none => exact ((stable_fileclose f0).bind fun _ => stable_pure).keeps s2 hs2
      | some f1 =>
        obtain ⟨hlt1, href1, htype1, heq2⟩ := hr f1 rfl
        have hne : f0 ≠ f1 := by
          rintro rfl
          rw [heq1] at href1
          simp [System.setFile, Files.setFile] at href1
        have hfile1 : s2.ftable f1 = { s1.ftable f1 with ref := 1 } := by
          rw [heq2]
          exact update_self _ _ _
        have hfile0 : s2.ftable f0 = { s.ftable f0 with ref := 1 } := by
          rw [heq2, heq1]
          exact (update_of_ne hne _ _).trans (update_self _ _ _)
        obtain ⟨own, pipes, hacc⟩ := hs2.accounts
        rw [wp_bind, onKernel, wp_zoom]
        refine wp_conseq_ok (kalloc_noEvict s2.kernel) ?_
        rintro r k' hok ⟨p, rest, hlist, rfl, rfl⟩
        obtain ⟨hfresh, own', hkinv'⟩ :=
          hacc.kinv.takePipe (n := decr32 s2.kernel.numFreePages) hlist
        have hclosed : ∀ w, (s2.pipe p).isOpen w = false := fun w =>
          Bool.not_eq_true _ ▸ fun hw => hfresh ((hacc.listed p).2 ⟨w, hw⟩)
        have hcount := wp_ok (counted_kalloc.keeps s2.kernel hacc.counted) hok
        have hfiles := hacc.files.piped (f := p) hne (by rw [hfile0]; exact htype0)
          (by rw [hfile1]; exact htype1) (by rw [hfile0]; exact ⟨hlt0, le_rfl⟩)
          (by rw [hfile1]; exact ⟨hlt1, le_rfl⟩) hclosed
        simp only [wp_bind, wp_modify, wp_pure]
        refine ⟨⟨own', pipes ++ [p], hkinv', hcount, fun g => ?_, ?_⟩, hs2.proc, hs2.initproc⟩
        · show g ∈ pipes ++ [p] ↔ ∃ w, ((s2.piped f0 f1 p).pipe g).isOpen w = true
          simp only [isOpen_piped, List.mem_append, List.mem_singleton]
          by_cases hg : g = p
          · simp [hg]
          · simp [hg, hacc.listed]
        · exact ⟨hfiles.inUse, hfiles.ends, hfiles.only⟩

theorem stable_sysPipe (p : Nat) : Stable (Balanced K k₀) (sysPipe noEvict p) := by
  refine stable_pipealloc.bind fun r => ?_
  cases r with
  | none => exact stable_pure
  | some ends =>
    refine (stable_fdalloc p ends.1).bind fun r => ?_
    cases r with
    | none =>
      refine (stable_fileclose ends.1).bind fun _ => ?_
      exact (stable_fileclose ends.2).bind fun _ => stable_pure
    | some fd0 =>
      refine (stable_fdalloc p ends.2).bind fun r => ?_
      cases r with
      | none =>
        refine Stable.bind (stable_setOfile p fd0 none) fun _ => ?_
        refine (stable_fileclose ends.1).bind fun _ => ?_
        exact (stable_fileclose ends.2).bind fun _ => stable_pure
      | some _ => exact stable_pure

theorem stable_argfd (p fd : Nat) : Stable (Balanced K k₀) (onFiles (argfd p fd)) :=
  stable_onFiles fun _ hs => hs

theorem stable_sysClose (p fd : Nat) : Stable (Balanced K k₀) (sysClose p fd) := by
  refine (stable_argfd p fd).bind fun r => ?_
  cases r with
  | none => exact stable_pure
  | some f =>
    refine Stable.bind (stable_setOfile p fd none) fun _ => ?_
    exact (stable_fileclose f).bind fun _ => stable_pure

theorem stable_sysDup (p fd : Nat) : Stable (Balanced K k₀) (onFiles (sysDup p fd)) := by
  refine stable_onFiles fun s hs => ?_
  rw [sysDup, wp_bind, argfd, wp_bind, wp_get, wp_pure]
  cases (if fd < NOFILE then s.ofile p fd else none) with
  | none => exact hs
  | some f =>
    rw [wp_bind]
    refine wp_conseq (hs.fdalloc p f) fun r t ht => ?_
    cases r with
    | none => exact ht
    | some fd' =>
      rw [wp_bind]
      exact ht.filedup f

theorem sysOpen_spec (h : Balanced K k₀ s) :
    wp (sysOpen p ip) s (fun _ s' => Balanced K k₀ s') fun _ => True := by
  unfold sysOpen
  rw [wp_bind]
  refine wp_conseq (filealloc_spec h) ?_
  rintro r s1 ⟨hs1, hr⟩
  cases r with
  | none => exact hs1
  | some f =>
    obtain ⟨-, -, htype, heq⟩ := hr f rfl
    have hplain : (s1.ftable f).type ≠ .pipe := by
      rw [heq]
      simpa [System.setFile, Files.setFile] using htype
    rw [wp_bind, onFiles, wp_zoom, fdalloc, wp_bind, wp_get]
    cases firstSlot NOFILE fun fd => (s1.ofile p fd).isNone with
    | none => exact ((stable_fileclose f).bind fun _ => stable_pure).keeps s1 hs1
    | some fd =>
      exact (hs1.setOfile p fd (some f)).files
        (fun hf => hf.setPlain hplain (by simp)) rfl rfl

theorem stable_forkFiles (p np : Nat) : Stable (Balanced K k₀) (onFiles (forkFiles p np)) := by
  refine stable_onFiles fun s hs => ?_
  refine wp_loopFrom (fun _ t => FilesInv { s with toFiles := t }) (fun fd t _ _ ht => ?_) hs
  rw [wp_bind, wp_get]
  cases t.ofile p fd with
  | none => exact ht
  | some f =>
    rw [wp_bind]
    exact wp_conseq (ht.filedup f) fun _ t1 ht1 => ht1.setOfile np fd (some f)

theorem stable_exitFiles (p : Nat) : Stable (Balanced K k₀) (exitFiles p) := by
  refine stable_loopFrom (fun fd => stable_get.bind fun s => ?_) _ _
  cases s.ofile p fd with
  | none => exact stable_pure
  | some f => exact (stable_fileclose f).bind fun _ => stable_setOfile p fd none

/-! ### Runs -/

/-- What the system call layer checks before call `op` of process `p`. -/
def SysEnabled (s : System) (p : Nat) : SysOp → Prop
  | .call op => Enabled s.kernel p op
  | _ => Runs s.kernel p

/-- The calls `ops`, one after another, with a free page whenever one is asked for. -/
inductive SysSteps : System → List (Nat × SysOp) → System → Prop where
  | nil (s : System) : SysSteps s [] s
  | cons {s s₁ s' : System} {p : Nat} {op : SysOp} {r : Reply} {ops : List (Nat × SysOp)} :
      SysEnabled s p op → syscall noEvict p op s = .ok (r, s₁) → SysSteps s₁ ops s' →
      SysSteps s ((p, op) :: ops) s'

theorem Balanced.perform {op : Op} (h : Balanced K k₀ s) (hen : Enabled s.kernel p op) :
    wp (onKernel (perform noEvict p op)) s (fun _ s' => Balanced K s'.kernel s') fun _ => True := by
  obtain ⟨own, pipes, hacc⟩ := h.accounts
  have href := hacc.kinv.refines_flatOf
  obtain ⟨hrun, hadm⟩ := suffices_enabled rfl rfl rfl _ _ _ _ _ href hen
  rw [onKernel, wp_zoom]
  refine wp_conseq_ok (perform_spec (evictOk_noEvict trivial) href hrun hadm) ?_
  rintro r k' hok ⟨own', href', -⟩
  have hcount := wp_ok ((counted_perform p op).keeps _ hacc.counted) hok
  exact ⟨⟨own', pipes, href'.kinv, hcount, hacc.listed,
    hacc.files.inUse, hacc.files.ends, hacc.files.only⟩, rfl, rfl⟩

theorem Balanced.self (h : Balanced K k₀ s) : Balanced K s.kernel s := ⟨h.accounts, rfl, rfl⟩

theorem Balanced.syscall {op : SysOp} (h : Balanced K k₀ s) (hen : SysEnabled s p op) :
    wp (syscall noEvict p op) s (fun _ s' => Balanced K s'.kernel s') fun _ => True := by
  -- the calls on files keep the books and the processes
  have hfile : ∀ {α : Type} {m : Sys α} {g : α → Reply}, Stable (Balanced K k₀) m →
      wp (m >>= fun a => pure (g a)) s (fun _ s' => Balanced K s'.kernel s') fun _ => True := by
    intro α m g hm
    rw [wp_bind]
    exact wp_conseq (hm.keeps s h) fun _ _ hs => hs.self
  cases op with
  | pipe => exact hfile (stable_sysPipe p)
  | close fd => exact hfile (stable_sysClose p fd)
  | dup fd => exact hfile (stable_sysDup p fd)
  | «open» ip => exact hfile ⟨fun _ hs => sysOpen_spec hs⟩
  | call op =>
    cases op with
    | fork =>
      simp only [CowPaging.syscall, wp_bind, wp_get]
      refine wp_conseq (h.perform hen) fun r s1 hs1 => ?_
      cases firstSlot NPROC fun q => decide ((s.kernel.proc q).state = .unused) with
      | none => exact hs1
      | some np =>
        cases r with
        | code pid =>
          refine wp_ite (fun _ => hs1) fun _ => ?_
          rw [wp_bind]
          exact wp_conseq ((stable_forkFiles p np).keeps s1 hs1) fun _ _ hs => hs.self
        | asleep => exact hs1
        | byte b => exact hs1
        | done => exact hs1
    | exit =>
      simp only [CowPaging.syscall, wp_bind]
      refine wp_conseq ((stable_exitFiles p).keeps s h.self) fun _ s1 hs1 => ?_
      refine hs1.perform ⟨?_, ?_⟩
      · rw [Runs, hs1.proc]
        exact hen.1
      · show s1.kernel.initproc ≠ some p
        rw [hs1.initproc]
        exact hen.2
    | exec ip argv => exact h.perform hen
    | sbrk n => exact h.perform hen
    | wait => exact h.perform hen
    | read va => exact h.perform hen
    | write va b => exact h.perform hen
    | fault va => exact h.perform hen
    | touch va => exact h.perform hen

theorem Balanced.run {ops : List (Nat × SysOp)} (h : Balanced K s.kernel s)
    (hs : SysSteps s ops s') : Balanced K s'.kernel s' := by
  induction hs with
  | nil s => exact h
  | cons hen hok _ ih =>
    have hnext := wp_ok (h.syscall hen) hok
    exact ih hnext

theorem balanced_boot {otherCpus : Nat} {initcode : List Byte}
    (hboot : bootPages otherCpus initcode Kernel.zero = .ok (K, k)) :
    Balanced K k (System.start k) := by
  have hspec : wp (bootPages otherCpus initcode) Kernel.zero (fun K s =>
      (∃ own, Refines Mode.plenty own s (Flat.boot initcode) ∧ Ledger K own s) ∧
      Supply Mode.plenty true noEvict (fun _ => True) 0 s) fun _ => True :=
    bootPages_spec rfl rfl (.inr trivial) (.inr trivial)
  obtain ⟨⟨own, href, hl⟩, -⟩ := wp_ok hspec hboot
  have hzero : Counted Kernel.zero := rfl
  have hcount := wp_ok ((counted_bootPages otherCpus initcode).keeps _ hzero) hboot
  have hclosed : ∀ f w, ((System.start k).pipe f).isOpen w = false := by
    intro f w
    cases w <;> rfl
  have hno : ∀ i f w, ¬ IsEnd (System.start k) i f w := fun i f w he => FileType.noConfusion he.1
  refine ⟨⟨own, [], href.kinv.account hl, hcount, fun f => ?_, ?_, ?_, ?_⟩, rfl, rfl⟩
  · simp [hclosed]
  · exact fun i hi => FileType.noConfusion hi
  · grind
  · exact fun i j f w hi => (hno i f w hi).elim

/-! ### The classes of pages -/

/-- The uses of a page. -/
inductive PageClass where
  | free
  | user
  | space (p : Nat)
  | kernelSpace
  | kstack (p : Nat)
  | bootStack (cpu : Nat)
  | pipe

/-- Page `f` is used in this way. `K` has the directory of the kernel and the boot stacks of
    the other processors, in their order. -/
def InClass (K : Kept) (s : System) (f : Nat) : PageClass → Prop
  | .free => s.kernel.freelist.count f = 1
  | .user => (userPtes s.kernel f).Nonempty
  | .space p => p < NPROC ∧ (s.kernel.proc p).state ≠ .unused ∧
      InDir s.kernel (s.kernel.proc p).pgdir f
  | .kernelSpace => InDir s.kernel K.kpgdir f
  | .kstack p => p < NPROC ∧ (s.kernel.proc p).state ≠ .unused ∧ (s.kernel.proc p).kstack = f
  | .bootStack cpu => K.pages[cpu]? = some f
  | .pipe => ∃ i, i < NFILE ∧ 1 ≤ (s.ftable i).ref ∧ (s.ftable i).type = .pipe ∧
      (s.ftable i).pipe = f

variable {pages : List Nat} {c c' : PageClass}

/-- The role of a page of class `c`. -/
def PageClass.Role (k : Kernel) (f : Nat) : PageClass → Owner → Prop
  | .free, o => o = .free
  | .user, o => o = .user
  | .space p, o => o = .dir ∧ (k.proc p).pgdir = f ∨ ∃ i, o = .tab (k.proc p).pgdir i
  | .kstack p, o => o = .stack p
  | .kernelSpace, o => o = .held
  | .bootStack _, o => o = .held
  | .pipe, o => o = .held

theorem KInv.attachOf_used (h : KInv mode own k) (hp : p < NPROC)
    (hused : (k.proc p).state ≠ .unused) :
    attachOf k p = some ((k.proc p).pgdir, (k.proc p).sz) := by
  refine attachOf_eq_some.2 ⟨hp, ?_, rfl, rfl⟩
  have hset := h.settled p hp
  cases hst : (k.proc p).state <;> first | exact (hused hst).elim | exact (hset hst).elim | rfl

theorem Accounts.pipe_iff (h : Accounts K own pages s) : InClass K s f .pipe ↔ f ∈ pages := by
  rw [h.listed]
  constructor
  · rintro ⟨i, -, -, htype, hf⟩
    exact ⟨_, (h.files.ends f _).2 ⟨i, htype, hf, rfl⟩⟩
  · rintro ⟨w, hw⟩
    obtain ⟨i, htype, hf, -⟩ := (h.files.ends f w).1 hw
    obtain ⟨hi, href⟩ := h.files.inUse i htype
    exact ⟨i, hi, href, htype, hf⟩

theorem Accounts.role (h : Accounts K own pages s) (hc : InClass K s f c) :
    c.Role s.kernel f (own f) := by
  have hl := h.kinv.books
  cases c with
  | free =>
    have hmem : f ∈ s.kernel.freelist := List.count_pos_iff.1 (by rw [hc]; exact Nat.one_pos)
    exact (h.kinv.inv.frames.free_iff f).1 hmem
  | user =>
    obtain ⟨ptr, hptr⟩ := hc
    rw [← h.kinv.inv.mappers_eq h.kinv.attached] at hptr
    obtain ⟨d, v, w, hu, hp, rfl, -⟩ := hptr
    exact (h.kinv.inv.maps.user d v w hu hp).1
  | space p =>
    obtain ⟨hp, hused, hin⟩ := hc
    have hd := h.kinv.inv.procs.dir p _ _ (h.kinv.attachOf_used hp hused)
    rcases hin with rfl | ⟨i, hi, ht⟩
    · exact .inl ⟨hd, rfl⟩
    · exact .inr ⟨i, (h.kinv.inv.tables.tab_iff _ i f hd hi).1 ht⟩
  | kernelSpace => exact (hl.held f).2 (.inl hc)
  | kstack p =>
    obtain ⟨hp, hused, rfl⟩ := hc
    exact h.kinv.kstack p hp hused
  | bootStack cpu =>
    have hmem : f ∈ K.pages := List.mem_of_getElem? hc
    exact (hl.held f).2 (.inr (List.mem_append_left _ hmem))
  | pipe => exact (hl.held f).2 (.inr (List.mem_append_right _ (h.pipe_iff.1 hc)))

theorem Accounts.exists_class (h : Accounts K own pages s) (hlo : KernelImage.endPage ≤ f)
    (hhi : f < NFRAMES) : ∃ c, InClass K s f c := by
  have hl := h.kinv.books
  cases ho : own f with
  | unmanaged => exact (hl.managed f hlo hhi ho).elim
  | free =>
    have hmem := (h.kinv.inv.frames.free_iff f).2 ho
    exact ⟨.free, List.count_eq_one_of_mem h.kinv.inv.frames.nodup hmem⟩
  | user =>
    refine ⟨.user, ?_⟩
    show (userPtes s.kernel f).Nonempty
    rw [← h.kinv.inv.mappers_eq h.kinv.attached]
    exact h.kinv.inv.maps.mapped f ho
  | dir =>
    obtain ⟨p, z, hatt⟩ := h.kinv.attached f ho
    obtain ⟨hp, hlive, rfl, -⟩ := attachOf_eq_some.1 hatt
    exact ⟨.space p, hp, fun hun => by simp [hun, ProcState.live] at hlive, .inl rfl⟩
  | tab d i =>
    obtain ⟨hd, hi⟩ := h.kinv.inv.tables.tab_dir d i f ho
    obtain ⟨p, z, hatt⟩ := h.kinv.attached d hd
    obtain ⟨hp, hlive, rfl, -⟩ := attachOf_eq_some.1 hatt
    refine ⟨.space p, hp, fun hun => by simp [hun, ProcState.live] at hlive, .inr ⟨i, hi, ?_⟩⟩
    exact (h.kinv.inv.tables.tab_iff _ i f hd hi).2 ho
  | stack p => exact ⟨.kstack p, hl.kstacks f p ho⟩
  | held =>
    rcases (hl.held f).1 ho with hin | hmem
    · exact ⟨.kernelSpace, hin⟩
    · rcases List.mem_append.1 hmem with hboot | hpipe
      · obtain ⟨cpu, hcpu⟩ := List.mem_iff_getElem?.1 hboot
        exact ⟨.bootStack cpu, hcpu⟩
      · exact ⟨.pipe, h.pipe_iff.2 hpipe⟩

theorem Accounts.space_inj {p q : Nat} (h : Accounts K own pages s)
    (hp : InClass K s f (.space p)) (hq : InClass K s f (.space q)) : p = q := by
  have hattp := h.kinv.attachOf_used hp.1 hp.2.1
  have hattq := h.kinv.attachOf_used hq.1 hq.2.1
  have hsame : (s.kernel.proc p).pgdir = (s.kernel.proc q).pgdir := by
    rcases h.role hp with ⟨ho, hpg⟩ | ⟨i, ho⟩ <;> rcases h.role hq with ⟨ho', hpg'⟩ | ⟨j, ho'⟩
    · exact hpg.trans hpg'.symm
    · exact Owner.noConfusion (ho.symm.trans ho')
    · exact Owner.noConfusion (ho.symm.trans ho')
    · exact (Owner.tab.inj (ho.symm.trans ho')).1
  rw [← hsame] at hattq
  exact h.kinv.inv.procs.inj p q _ _ _ hattp hattq

theorem Accounts.held_unique (h : Accounts K own pages s) (ho : own f = .held)
    (hc : InClass K s f c) (hc' : InClass K s f c') : c = c' := by
  have hl := h.kinv.books
  have hdisj : f ∈ K.pages → f ∉ pages := fun hb hp =>
    (List.nodup_append.1 hl.nodup).2.2 f hb f hp rfl
  have hboot : ∀ {cpu}, InClass K s f (.bootStack cpu) → f ∈ K.pages := List.mem_of_getElem?
  have hspace : InClass K s f .kernelSpace → f ∉ K.pages ∧ f ∉ pages := fun hin =>
    ⟨fun hm => hl.apart f (List.mem_append_left _ hm) hin,
      fun hm => hl.apart f (List.mem_append_right _ hm) hin⟩
  have hrole := h.role hc
  have hrole' := h.role hc'
  rw [ho] at hrole hrole'
  cases c <;> cases c' <;> simp only [PageClass.Role, reduceCtorEq, false_and, exists_false,
    or_self] at hrole hrole'
  case kernelSpace.kernelSpace => rfl
  case kernelSpace.bootStack => exact ((hspace hc).1 (hboot hc')).elim
  case kernelSpace.pipe => exact ((hspace hc).2 (h.pipe_iff.1 hc')).elim
  case bootStack.kernelSpace => exact ((hspace hc').1 (hboot hc)).elim
  case bootStack.bootStack cpu cpu' =>
    have hnodup := (List.nodup_append.1 hl.nodup).1
    obtain ⟨hlt, -⟩ := List.getElem?_eq_some_iff.1 hc
    exact congrArg PageClass.bootStack
      ((List.getElem?_inj hlt hnodup).1 (Eq.trans hc (Eq.symm hc')))
  case bootStack.pipe => exact (hdisj (hboot hc) (h.pipe_iff.1 hc')).elim
  case pipe.kernelSpace => exact ((hspace hc').2 (h.pipe_iff.1 hc)).elim
  case pipe.bootStack => exact (hdisj (hboot hc') (h.pipe_iff.1 hc)).elim
  case pipe.pipe => rfl

theorem Accounts.class_unique (h : Accounts K own pages s) (hc : InClass K s f c)
    (hc' : InClass K s f c') : c = c' := by
  by_cases ho : own f = .held
  · exact h.held_unique ho hc hc'
  have hrole := h.role hc
  have hrole' := h.role hc'
  cases c <;> cases c' <;> simp only [PageClass.Role] at hrole hrole' <;>
    first
    | rfl
    | exact (ho hrole).elim
    | exact (ho hrole').elim
    | exact congrArg _ (h.space_inj hc hc')
    | exact congrArg _ (Owner.stack.inj (hrole.symm.trans hrole'))
    | simp [hrole] at hrole'
    | simp [hrole'] at hrole

/-- Every page given to the allocator at boot is used in exactly one way, in every state of
    every run, and the count of free pages is the length of the free list. -/
theorem memory_conserved {otherCpus : Nat} {initcode : List Byte} {ops : List (Nat × SysOp)}
    (hboot : bootPages otherCpus initcode Kernel.zero = .ok (K, k))
    (hs : SysSteps (System.start k) ops s) :
    (∀ f, KernelImage.endPage ≤ f → f < NFRAMES → ∃! c, InClass K s f c) ∧
    s.kernel.numFreePages = s.kernel.freelist.length := by
  obtain ⟨own, pages, h⟩ := ((balanced_boot hboot).run hs).accounts
  refine ⟨fun f hlo hhi => ?_, ?_⟩
  · obtain ⟨c, hc⟩ := h.exists_class hlo hhi
    exact ⟨c, hc, fun c' hc' => h.class_unique hc' hc⟩
  · have hframes := h.kinv.inv.frames
    have hsub : s.kernel.freelist ⊆ List.range NFRAMES := by
      intro g hg
      have hfree := (hframes.free_iff g).1 hg
      exact List.mem_range.2 (hframes.range g (by rw [hfree]; simp)).2
    have hlen := (hframes.nodup.subperm hsub).length_le
    rw [List.length_range] at hlen
    have hcount : s.kernel.numFreePages = s.kernel.freelist.length % 2 ^ 32 := h.counted
    rw [hcount, Nat.mod_eq_of_lt]
    simp only [NFRAMES, PHYSTOP, PGSIZE] at hlen
    omega

theorem first_pipe (hmem : 12 + 1 + 23 ≤ NFRAMES - KernelImage.endPage) :
    ∃ K k s, bootPages 1 [7] Kernel.zero = .ok (K, k) ∧
      SysSteps (System.start k) [(0, .pipe)] s ∧ (s.ftable 0).type = .pipe := by
  have hlen : ([7] : List Byte).length < PGSIZE := by decide
  have hspec : wp (bootPages 1 [7]) Kernel.zero (fun K s =>
      (∃ own, Refines Mode.plenty own s (Flat.boot [7]) ∧ Ledger K own s) ∧
      Supply Mode.plenty true noEvict (fun _ => False) 12 s) fun _ => False :=
    bootPages_spec rfl rfl (.inl hlen) (.inl hmem)
  obtain ⟨K, k, hboot, ⟨own, href, -⟩, hsup⟩ := exists_ok_of_wp hspec
  have hstate : (k.proc 0).state = .runnable := by rw [← href.table.state]; rfl
  have hpipe : wp (syscall noEvict 0 .pipe) (System.start k)
      (fun _ s' => (s'.ftable 0).type = .pipe) fun _ => False := by
    have hfirst : wp (onFiles filealloc) (System.start k) (fun r s' => r = some 0 ∧
        s' = (System.start k).setFile 0 fun e => { e with ref := 1 }) fun _ => False :=
      ⟨rfl, rfl⟩
    have hsecond : wp (onFiles filealloc) ((System.start k).setFile 0 fun e => { e with ref := 1 })
        (fun r s' => r = some 1 ∧ s' = ((System.start k).setFile 0 fun e =>
          { e with ref := 1 }).setFile 1 fun e => { e with ref := 1 }) fun _ => False :=
      ⟨rfl, rfl⟩
    simp only [syscall, sysPipe, pipealloc, wp_bind]
    refine wp_conseq hfirst ?_
    rintro _ _ ⟨rfl, rfl⟩
    simp only [wp_bind]
    refine wp_conseq hsecond ?_
    rintro _ _ ⟨rfl, rfl⟩
    rw [wp_bind, onKernel, wp_zoom]
    refine wp_conseq (kalloc_spec href.kinv.inv hsup) ?_
    rintro _ k' ⟨f, rfl, -⟩
    exact rfl
  obtain ⟨r, s, hok, htype⟩ := exists_ok_of_wp hpipe
  exact ⟨K, k, s, hboot, .cons ⟨by decide, .inr (.inl hstate)⟩ hok (.nil s), htype⟩

end

theorem memory_conserved_pipe : letI := KernelImage.sample
    ∃ K k s, bootPages 1 [7] Kernel.zero = .ok (K, k) ∧
      SysSteps (System.start k) [(0, .pipe)] s ∧ (s.ftable 0).type = .pipe ∧
      (∀ f, KernelImage.endPage ≤ f → f < NFRAMES → ∃! c, InClass K s f c) ∧
      s.kernel.numFreePages = s.kernel.freelist.length := by
  let _ := KernelImage.sample
  obtain ⟨K, k, s, hboot, hs, htype⟩ := first_pipe (by decide)
  exact ⟨K, k, s, hboot, hs, htype, memory_conserved hboot hs⟩

end CowPaging
