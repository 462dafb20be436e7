import CowPaging.Shell

/-!
# The grammar of the shell, and its tokens

The grammar is over tokens whose words are texts, and a line is tokens with white space
between them; every line has one token sequence. The parser works on positions: `At` gives
the tokens from a position on, their words as spans, and `peek` and `gettoken` are described
by them.
-/

namespace CowPaging.Shell

open Bytes StateExcept

/-! ### The grammar -/

inductive Tok (W : Type) where
  | word (w : W)
  | lpar
  | rpar
  | bar
  | amp
  | semi
  | less
  | greater
  | append
deriving DecidableEq, Repr

section Grammar

variable {W V : Type}

def Tok.map (f : W → V) : Tok W → Tok V
  | .word w => .word (f w)
  | .lpar => .lpar
  | .rpar => .rpar
  | .bar => .bar
  | .amp => .amp
  | .semi => .semi
  | .less => .less
  | .greater => .greater
  | .append => .append

def Cmd.map (f : W → V) : Cmd W → Cmd V
  | .exec argv => .exec (argv.map f)
  | .redir cmd file mode fd => .redir (cmd.map f) (f file) mode fd
  | .pipe left right => .pipe (left.map f) (right.map f)
  | .list left right => .list (left.map f) (right.map f)
  | .back cmd => .back (cmd.map f)

/-- The file, mode and descriptor of a redirection. -/
structure Redirection (W : Type) where
  file : W
  mode : Nat
  fd : Nat

/-- `redir`: an operator and the word after it. -/
inductive Redir : Tok W → W → Redirection W → Prop where
  | less (w : W) : Redir .less w ⟨w, O_RDONLY, 0⟩
  | greater (w : W) : Redir .greater w ⟨w, O_WRONLY ||| O_CREATE, 1⟩
  | append (w : W) : Redir .append w ⟨w, O_WRONLY ||| O_CREATE, 1⟩

/-- `redir*`. -/
inductive Redirs : List (Tok W) → List (Redirection W) → Prop where
  | nil : Redirs [] []
  | cons {t : Tok W} {w : W} {r : Redirection W} {ts : List (Tok W)} {rs : List (Redirection W)} :
      Redir t w r → Redirs ts rs → Redirs (t :: .word w :: ts) (r :: rs)

/-- `(word redir*)*`: the words and the redirections. -/
inductive Args : List (Tok W) → List W → List (Redirection W) → Prop where
  | nil : Args [] [] []
  | cons {w : W} {ts ts' : List (Tok W)} {ws : List W} {rs rs' : List (Redirection W)} :
      Redirs ts rs → Args ts' ws rs' → Args (.word w :: (ts ++ ts')) (w :: ws) (rs ++ rs')

/-- The last redirection is outermost. -/
def wrap (c : Cmd W) (rs : List (Redirection W)) : Cmd W :=
  rs.foldl (fun c r => .redir c r.file r.mode r.fd) c

def backs : Nat → Cmd W → Cmd W
  | 0, c => c
  | n + 1, c => backs n (.back c)

inductive Nonterminal where
  | line
  | pipe
  | exec

/-- The nonterminal derives the tokens, with the parse tree. -/
inductive Derives : Nonterminal → List (Tok W) → Cmd W → Prop where
  | line {ts : List (Tok W)} {c : Cmd W} (n : Nat) : Derives .pipe ts c →
      Derives .line (ts ++ List.replicate n .amp) (backs n c)
  | seq {ts ts' : List (Tok W)} {c c' : Cmd W} (n : Nat) : Derives .pipe ts c →
      Derives .line ts' c' →
      Derives .line (ts ++ List.replicate n .amp ++ .semi :: ts') (.list (backs n c) c')
  | pipe {ts : List (Tok W)} {c : Cmd W} : Derives .exec ts c → Derives .pipe ts c
  | bar {ts ts' : List (Tok W)} {c c' : Cmd W} : Derives .exec ts c → Derives .pipe ts' c' →
      Derives .pipe (ts ++ .bar :: ts') (.pipe c c')
  | block {ts ts' : List (Tok W)} {c : Cmd W} {rs : List (Redirection W)} : Derives .line ts c →
      Redirs ts' rs → Derives .exec (.lpar :: (ts ++ .rpar :: ts')) (wrap c rs)
  | words {ts ts' : List (Tok W)} {ws : List W} {rs rs' : List (Redirection W)} : Redirs ts rs →
      Args ts' ws rs' → ws.length < MAXARGS →
      Derives .exec (ts ++ ts') (wrap (.exec ws) (rs ++ rs'))

end Grammar

/-! ### Spelling -/

def Tok.spelling : Tok (List Byte) → List Byte
  | .word w => w
  | .lpar => [ch '(']
  | .rpar => [ch ')']
  | .bar => [ch '|']
  | .amp => [ch '&']
  | .semi => [ch ';']
  | .less => [ch '<']
  | .greater => [ch '>']
  | .append => [ch '>', ch '>']

/-- A word has bytes, all of them word bytes. -/
def Tok.Proper : Tok (List Byte) → Prop
  | .word w => w ≠ [] ∧ ∀ c ∈ w, isWordByte c = true
  | _ => True

/-- A word ends where the word bytes end, and `>` is not the start of `>>`. -/
def Tok.Ends (rest : List Byte) : Tok (List Byte) → Prop
  | .word _ => ∀ c ∈ rest.head?, isWordByte c = false
  | .greater => ∀ c ∈ rest.head?, c ≠ ch '>'
  | _ => True

/-- The text is the tokens, with any white space between them. -/
inductive Spells : List Byte → List (Tok (List Byte)) → Prop where
  | nil {blank : List Byte} : (∀ c ∈ blank, isWhite c = true) → Spells blank []
  | cons {blank rest : List Byte} {t : Tok (List Byte)} {ts : List (Tok (List Byte))} :
      (∀ c ∈ blank, isWhite c = true) → t.Proper → t.Ends rest → Spells rest ts →
      Spells (blank ++ (t.spelling ++ rest)) (t :: ts)

/-! ### Tokens from a position on -/

section Scan

variable {line : List Byte} {p : Byte → Bool} {s i k : Nat}

theorem charAt_of_le (h : line.length ≤ i) : charAt line i = 0 := by
  rw [charAt, List.getD_eq_getElem?_getD, List.getElem?_eq_none h]
  rfl

theorem charAt_mem (h : i < line.length) : charAt line i ∈ line := by
  rw [charAt, List.getD_eq_getElem?_getD, List.getElem?_eq_getElem h]
  exact List.getElem_mem h

theorem charAt_eq_zero_iff (hline : 0 ∉ line) : charAt line i = 0 ↔ line.length ≤ i := by
  refine ⟨fun h => Nat.le_of_not_lt fun hi => hline ?_, charAt_of_le⟩
  rw [← h]
  exact charAt_mem hi

theorem skipTurns_spec (hk : s + k = line.length) :
    s ≤ skipTurns line p k s ∧ skipTurns line p k s ≤ line.length ∧
      (∀ i, s ≤ i → i < skipTurns line p k s → p (charAt line i) = true) ∧
      (skipTurns line p k s = line.length ∨ p (charAt line (skipTurns line p k s)) = false) := by
  induction k generalizing s with
  | zero => grind [skipTurns]
  | succ k ih =>
    rw [skipTurns]
    split
    · rename_i hp
      obtain ⟨hle, hend, hall, hstop⟩ := ih (s := s + 1) (by omega)
      refine ⟨by omega, hend, fun i h1 h2 => ?_, hstop⟩
      by_cases hi : i = s
      · rw [hi]
        exact hp
      · exact hall i (by omega) h2
    · rename_i hp
      exact ⟨Nat.le_refl _, by omega, fun i h1 h2 => by omega, .inr (by simpa using hp)⟩

/-- What a loop of the scanner skips. -/
structure Skips (line : List Byte) (p : Byte → Bool) (s e : Nat) : Prop where
  le : s ≤ e
  bound : e ≤ line.length
  all : ∀ i, s ≤ i → i < e → p (charAt line i) = true
  stop : e = line.length ∨ p (charAt line e) = false

theorem skips_skip (p : Byte → Bool) (hs : s ≤ line.length) : Skips line p s (skip line p s) := by
  have hk : s + (line.length - s) = line.length := by omega
  obtain ⟨hle, hend, hall, hstop⟩ := skipTurns_spec (p := p) hk
  exact ⟨hle, hend, hall, hstop⟩

theorem skip_eq_self (hs : s ≤ line.length) (h : s = line.length ∨ p (charAt line s) = false) :
    skip line p s = s := by
  have hskip := skips_skip p hs
  have hle := hskip.le
  by_contra hne
  rcases h with h | h
  · have := hskip.bound
    omega
  · grind [hskip.all]

theorem skip_skip (hs : s ≤ line.length) : skip line p (skip line p s) = skip line p s :=
  skip_eq_self (skips_skip p hs).bound (skips_skip p hs).stop

/-- The text of a span. -/
def text (line : List Byte) (w : Span) : List Byte := (line.drop w.q).take (w.eq - w.q)

theorem drop_eq_cons (h : s < line.length) : line.drop s = charAt line s :: line.drop (s + 1) := by
  rw [charAt, List.getD_eq_getElem?_getD, List.getElem?_eq_getElem h]
  exact List.drop_eq_getElem_cons h

theorem text_append (h : s ≤ i) : text line ⟨s, i⟩ ++ line.drop i = line.drop s := by
  grind [text, List.drop_drop, Nat.add_sub_cancel', List.take_append_drop]

theorem mem_text {c : Byte} {e : Nat} (h : c ∈ text line ⟨s, e⟩) :
    ∃ i, s ≤ i ∧ i < e ∧ charAt line i = c := by
  obtain ⟨k, hk, hget⟩ := List.mem_iff_getElem.1 h
  simp only [text, List.length_take, List.length_drop] at hk
  refine ⟨s + k, by omega, by omega, ?_⟩
  simp only [text, List.getElem_take, List.getElem_drop] at hget
  rw [charAt, List.getD_eq_getElem?_getD, List.getElem?_eq_getElem (by omega)]
  exact hget

/-- The token that the code stands for. -/
def tokOf (t : Token) : Option (Tok Span) :=
  if t.ret = 0 then none
  else if t.ret = ch '|' then some .bar
  else if t.ret = ch '(' then some .lpar
  else if t.ret = ch ')' then some .rpar
  else if t.ret = ch ';' then some .semi
  else if t.ret = ch '&' then some .amp
  else if t.ret = ch '<' then some .less
  else if t.ret = ch '>' then some .greater
  else if t.ret = ch '+' then some .append
  else if t.ret = ch 'a' then some (.word t.span)
  else none

/-- The token at `s`, up to `e`. -/
structure Scanned (line : List Byte) (s e : Nat) (t : Tok Span) : Prop where
  lt : skip line isWhite s < e
  le : e ≤ line.length
  spelled : line.drop (skip line isWhite s) = (t.map (text line)).spelling ++ line.drop e
  proper : (t.map (text line)).Proper
  ends : (t.map (text line)).Ends (line.drop e)

theorem scanned_one {t : Tok Span} {q : Nat} (hq : skip line isWhite s = q)
    (hlt : q < line.length) (hspell : (t.map (text line)).spelling = [charAt line q])
    (hproper : (t.map (text line)).Proper)
    (hends : (t.map (text line)).Ends (line.drop (q + 1))) : Scanned line s (q + 1) t where
  lt := by omega
  le := hlt
  spelled := by
    rw [hq, hspell]
    exact drop_eq_cons hlt
  proper := hproper
  ends := hends

theorem head_drop {e : Nat} {c : Byte} (h : c ∈ (line.drop e).head?) :
    e < line.length ∧ charAt line e = c := by
  grind [drop_eq_cons, List.drop_of_length_le, Nat.le_of_not_lt]

theorem scanned_word {q : Nat} (hq : skip line isWhite s = q) (hlt : q < line.length)
    (hc : isWordByte (charAt line q) = true) :
    Scanned line s (skip line isWordByte q) (.word ⟨q, skip line isWordByte q⟩) := by
  have hskip := skips_skip isWordByte (Nat.le_of_lt hlt)
  have hlt' : q < skip line isWordByte q := by
    refine Nat.lt_of_le_of_ne hskip.le fun heq => ?_
    rcases hskip.stop with h | h
    · omega
    · rw [← heq, hc] at h
      cases h
  refine ⟨by omega, hskip.bound, ?_, ⟨?_, fun c hmem => ?_⟩, fun c hmem => ?_⟩
  · rw [hq]
    exact (text_append hskip.le).symm
  · intro hnil
    have hlen := congrArg List.length hnil
    have hbound := hskip.bound
    simp only [text, List.length_take, List.length_drop, List.length_nil] at hlen
    omega
  · grind [mem_text, hskip.all]
  · obtain ⟨he, rfl⟩ := head_drop hmem
    exact hskip.stop.resolve_left (Nat.ne_of_lt he)

theorem scan_cases (hline : 0 ∉ line) (hs : s ≤ line.length) :
    (tokOf (scan line s) = none ∧ (scan line s).ret = 0 ∧ (scan line s).span.eq = line.length ∧
      skip line isWhite s = line.length) ∨
    ∃ t, tokOf (scan line s) = some t ∧ Scanned line s (scan line s).span.eq t := by
  have hskip := skips_skip isWhite hs
  have hbound := hskip.bound
  rw [scan]
  obtain ⟨q, hq⟩ : ∃ q, skip line isWhite s = q := ⟨_, rfl⟩
  rw [hq] at hbound
  simp only [hq]
  by_cases hzero : charAt line q = 0
  · left
    have hend := (charAt_eq_zero_iff hline).1 hzero
    rw [if_pos hzero]
    exact ⟨rfl, rfl, Nat.le_antisymm hbound hend, Nat.le_antisymm hbound hend⟩
  right
  have hlt : q < line.length := Nat.lt_of_not_le fun hle => hzero (charAt_of_le hle)
  rw [if_neg hzero]
  split
  · rename_i hsym
    rcases hsym with h | h | h | h | h | h
    · exact ⟨.bar, by rw [h]; rfl, scanned_one hq hlt (by rw [h]; rfl) trivial trivial⟩
    · exact ⟨.lpar, by rw [h]; rfl, scanned_one hq hlt (by rw [h]; rfl) trivial trivial⟩
    · exact ⟨.rpar, by rw [h]; rfl, scanned_one hq hlt (by rw [h]; rfl) trivial trivial⟩
    · exact ⟨.semi, by rw [h]; rfl, scanned_one hq hlt (by rw [h]; rfl) trivial trivial⟩
    · exact ⟨.amp, by rw [h]; rfl, scanned_one hq hlt (by rw [h]; rfl) trivial trivial⟩
    · exact ⟨.less, by rw [h]; rfl, scanned_one hq hlt (by rw [h]; rfl) trivial trivial⟩
  rename_i hsym
  split
  · rename_i hgt
    split
    · rename_i hgt'
      have hlt' : q + 1 < line.length :=
        Nat.lt_of_not_le fun hle => by rw [charAt_of_le hle] at hgt'; exact absurd hgt' (by decide)
      refine ⟨.append, rfl, by dsimp only; omega, hlt', ?_, trivial, trivial⟩
      rw [hq, drop_eq_cons hlt, drop_eq_cons hlt', hgt, hgt']
      rfl
    · rename_i hgt'
      refine ⟨.greater, by rw [hgt]; rfl, scanned_one hq hlt (by rw [hgt]; rfl) trivial ?_⟩
      intro c hc
      rw [← (head_drop hc).2]
      exact hgt'
  · rename_i hgt
    refine ⟨_, rfl, scanned_word hq hlt ?_⟩
    have hwhite : isWhite (charAt line q) = false := by
      have hstop := hskip.stop
      rw [hq] at hstop
      exact hstop.resolve_left (Nat.ne_of_lt hlt)
    simp only [not_or] at hsym
    obtain ⟨h1, h2, h3, h4, h5, h6⟩ := hsym
    simp only [isWordByte, hwhite, Bool.not_false, Bool.true_and, decide_eq_true_eq, symbols,
      List.mem_cons, List.not_mem_nil, or_false, not_or]
    exact ⟨h6, h1, hgt, h5, h4, h2, h3⟩

/-- The byte that a symbol starts with. -/
def Tok.code {W : Type} : Tok W → Option Byte
  | .word _ => none
  | .lpar => some (ch '(')
  | .rpar => some (ch ')')
  | .bar => some (ch '|')
  | .amp => some (ch '&')
  | .semi => some (ch ';')
  | .less => some (ch '<')
  | .greater => some (ch '>')
  | .append => some (ch '>')

theorem Scanned.first {e : Nat} {t : Tok Span} (h : Scanned line s e t) :
    match t.code with
    | some c => charAt line (skip line isWhite s) = c
    | none => isWordByte (charAt line (skip line isWhite s)) = true := by
  have hspelled := h.spelled
  rw [drop_eq_cons (Nat.lt_of_lt_of_le h.lt h.le)] at hspelled
  cases t with
  | word w =>
    obtain ⟨hne, hall⟩ := h.proper
    cases hw : text line w with
    | nil => exact absurd hw hne
    | cons c rest =>
      simp only [Tok.map, Tok.spelling, hw, List.cons_append] at hspelled
      rw [hw] at hall
      exact (List.cons.inj hspelled).1 ▸ hall c List.mem_cons_self
  | lpar => exact (List.cons.inj hspelled).1
  | rpar => exact (List.cons.inj hspelled).1
  | bar => exact (List.cons.inj hspelled).1
  | amp => exact (List.cons.inj hspelled).1
  | semi => exact (List.cons.inj hspelled).1
  | less => exact (List.cons.inj hspelled).1
  | greater => exact (List.cons.inj hspelled).1
  | append => exact (List.cons.inj hspelled).1

/-- The tokens from `s` on. -/
inductive At (line : List Byte) : Nat → List (Tok Span) → Prop where
  | nil {s : Nat} : s ≤ line.length → tokOf (scan line s) = none → At line s []
  | cons {s : Nat} {t : Tok Span} {ts : List (Tok Span)} : s ≤ line.length →
      tokOf (scan line s) = some t → At line (next line s) ts → At line s (t :: ts)

variable {ts ts' : List (Tok Span)} {t : Tok Span}

theorem At.le (h : At line s ts) : s ≤ line.length := by
  cases h with
  | nil hs _ => exact hs
  | cons hs _ _ => exact hs

theorem At.unique (h : At line s ts) (h' : At line s ts') : ts = ts' := by
  induction h generalizing ts' with
  | nil _ hnone =>
    cases h' with
    | nil => rfl
    | cons _ hsome _ => grind
  | cons _ hsome _ ih =>
    cases h' with
    | nil _ hnone => grind
    | cons _ hsome' hrest => grind

theorem Scanned.lt_next {e : Nat} (h : Scanned line s e t) (hs : s ≤ line.length) :
    s < skip line isWhite e ∧ skip line isWhite e ≤ line.length := by
  have h1 := (skips_skip isWhite hs).le
  have h2 := skips_skip isWhite h.le
  have := h.lt
  exact ⟨by have := h2.le; omega, h2.bound⟩

theorem exists_at (hline : 0 ∉ line) (hs : s ≤ line.length) : ∃ ts, At line s ts := by
  obtain ⟨k, hk⟩ : ∃ k, line.length - s = k := ⟨_, rfl⟩
  induction k using Nat.strongRecOn generalizing s with
  | ind k ih =>
    rcases scan_cases hline hs with ⟨hnone, -⟩ | ⟨t, hsome, hscan⟩
    · exact ⟨[], .nil hs hnone⟩
    · obtain ⟨hlt, hle⟩ := hscan.lt_next hs
      obtain ⟨ts, hts⟩ := ih (line.length - next line s) (by rw [next]; omega) hle rfl
      exact ⟨t :: ts, .cons hs hsome hts⟩

theorem At.length_le (hline : 0 ∉ line) (h : At line s ts) : ts.length + s ≤ line.length := by
  induction h with
  | nil hs _ =>
    rw [List.length_nil]
    omega
  | cons hs hsome _ ih =>
    rcases scan_cases hline hs with ⟨hnone, -⟩ | ⟨t, -, hscan⟩
    · rw [hsome] at hnone
      cases hnone
    · have hlt := (hscan.lt_next hs).1
      rw [next] at ih
      rw [List.length_cons]
      omega

theorem scan_skip (hs : s ≤ line.length) : scan line (skip line isWhite s) = scan line s := by
  rw [scan, scan, skip_skip hs]

theorem At.blank (h : At line s ts) : At line (skip line isWhite s) ts := by
  have hbound := (skips_skip isWhite h.le).bound
  cases h with
  | nil hs hnone => exact .nil hbound (by rwa [scan_skip hs])
  | cons hs hsome hrest =>
    refine .cons hbound (by rwa [scan_skip hs]) ?_
    rw [next, scan_skip hs]
    exact hrest

theorem At.nil_iff (hline : 0 ∉ line) (h : At line s ts) :
    skip line isWhite s = line.length ↔ ts = [] := by
  cases h with
  | nil hs hnone =>
    rcases scan_cases hline hs with ⟨-, -, -, hend⟩ | ⟨t, hsome, -⟩
    · exact ⟨fun _ => rfl, fun _ => hend⟩
    · rw [hnone] at hsome
      cases hsome
  | cons hs hsome _ =>
    rcases scan_cases hline hs with ⟨hnone, -⟩ | ⟨t, -, hscan⟩
    · rw [hsome] at hnone
      cases hnone
    · have := hscan.lt
      have := hscan.le
      exact ⟨fun heq => by omega, fun heq => by cases heq⟩

theorem at_end (hline : 0 ∉ line) : At line line.length [] := by
  refine .nil (Nat.le_refl _) ?_
  rcases scan_cases hline (Nat.le_refl _) with ⟨hnone, -⟩ | ⟨t, -, hscan⟩
  · exact hnone
  · have h1 := hscan.lt
    have h2 := hscan.le
    have h3 := (skips_skip isWhite (Nat.le_refl line.length)).le
    omega

/-! ### `peek` and `gettoken` on tokens -/

/-- The first token starts with one of the bytes. -/
def starts {W : Type} (cs : List Byte) : List (Tok W) → Bool
  | [] => false
  | t :: _ => t.code.any fun c => decide (c ∈ cs)

variable {Q : Token → Nat → Prop} {R : Bool → Nat → Prop} {E : Stop → Prop} {cs : List Byte}

theorem wp_peek (hline : 0 ∉ line) (h : At line s ts) (hcs : ∀ c ∈ cs, c ∈ symbols)
    (hR : ∀ s', At line s' ts → R (starts cs ts) s') : wp (peek line cs) s R E := by
  have hval : decide (charAt line (skip line isWhite s) ≠ 0 ∧
      charAt line (skip line isWhite s) ∈ cs) = starts cs ts := by
    cases h with
    | nil hs hnone =>
      rcases scan_cases hline hs with ⟨-, -, -, hend⟩ | ⟨t, hsome, -⟩
      · rw [hend, charAt_of_le (Nat.le_refl _)]
        exact decide_eq_false fun hx => hx.1 rfl
      · rw [hnone] at hsome
        cases hsome
    | cons hs hsome _ =>
      rcases scan_cases hline hs with ⟨hnone, -⟩ | ⟨t, hsome', hscan⟩
      · rw [hsome] at hnone
        cases hnone
      · obtain rfl := Option.some.inj (hsome.symm.trans hsome')
        have hne : charAt line (skip line isWhite s) ≠ 0 := fun hzero =>
          absurd ((charAt_eq_zero_iff hline).1 hzero)
            (Nat.not_le.2 (Nat.lt_of_lt_of_le hscan.lt hscan.le))
        have hfirst := hscan.first
        simp only [hne, ne_eq, not_false_eq_true, true_and, starts]
        split at hfirst
        · rename_i c hcode
          rw [hcode, hfirst]
          rfl
        · rename_i hcode
          rw [hcode]
          refine decide_eq_false fun hmem => ?_
          simp only [isWordByte, Bool.and_eq_true, decide_eq_true_eq] at hfirst
          exact hfirst.2 (hcs _ hmem)
  simp only [peek, wp_bind, wp_modify, wp_get, wp_pure, hval]
  exact hR _ h.blank

theorem wp_gettoken_cons (h : At line s (t :: ts))
    (hQ : ∀ tok s', tokOf tok = some t → At line s' ts → Q tok s') :
    wp (gettoken line) s Q E := by
  cases h with
  | cons hs hsome hrest => exact hQ _ _ hsome hrest

theorem wp_gettoken_nil (hline : 0 ∉ line) (h : At line s [])
    (hQ : ∀ tok s', tok.ret = 0 → At line s' [] → Q tok s') : wp (gettoken line) s Q E := by
  cases h with
  | nil hs hnone =>
    rcases scan_cases hline hs with ⟨-, hret, hend, hskip⟩ | ⟨t, hsome, -⟩
    · refine hQ _ _ hret ?_
      rw [next, hend, skip_eq_self (Nat.le_refl _) (.inl rfl)]
      exact at_end hline
    · rw [hnone] at hsome
      cases hsome

/-! ### Lines and their tokens -/

theorem Spells.blank {x b : List Byte} {us : List (Tok (List Byte))} (h : Spells x us)
    (hb : ∀ c ∈ b, isWhite c = true) : Spells (b ++ x) us := by
  have hall : ∀ {y}, (∀ c ∈ y, isWhite c = true) → ∀ c ∈ b ++ y, isWhite c = true := by grind
  cases h with
  | nil hx => exact .nil (hall hx)
  | cons hx hproper hends hrest =>
    rw [← List.append_assoc]
    exact .cons (hall hx) hproper hends hrest

theorem blank_text {e : Nat} (h : Skips line isWhite s e) :
    ∀ c ∈ text line ⟨s, e⟩, isWhite c = true := by grind [mem_text, h.all]

theorem At.spells (hline : 0 ∉ line) (h : At line s ts) :
    Spells (line.drop s) (ts.map (Tok.map (text line))) := by
  induction h with
  | @nil s hs hnone =>
    have hskip := skips_skip isWhite hs
    rcases scan_cases hline hs with ⟨-, -, -, hend⟩ | ⟨t, hsome, -⟩
    · refine .nil fun c hc => ?_
      rw [← text_append hskip.le, hend, List.drop_length, List.append_nil] at hc
      rw [hend] at hskip
      exact blank_text hskip c hc
    · rw [hnone] at hsome
      cases hsome
  | @cons s t ts hs hsome _ ih =>
    have hskip := skips_skip isWhite hs
    rcases scan_cases hline hs with ⟨hnone, -⟩ | ⟨t', hsome', hscan⟩
    · rw [hsome] at hnone
      cases hnone
    · obtain rfl := Option.some.inj (hsome.symm.trans hsome')
      have hskip' := skips_skip isWhite hscan.le
      rw [← text_append hskip.le, hscan.spelled, List.map_cons]
      refine .cons (blank_text hskip) hscan.proper hscan.ends ?_
      rw [← text_append hskip'.le]
      exact ih.blank (blank_text hskip')

/-- The first token of a text without white space at the front, and the rest. -/
def lexHead : List Byte → Option (Tok (List Byte) × List Byte)
  | [] => none
  | c :: rest =>
    if c = ch '(' then some (.lpar, rest)
    else if c = ch ')' then some (.rpar, rest)
    else if c = ch '|' then some (.bar, rest)
    else if c = ch '&' then some (.amp, rest)
    else if c = ch ';' then some (.semi, rest)
    else if c = ch '<' then some (.less, rest)
    else if c = ch '>' then
      if rest.head? = some (ch '>') then some (.append, rest.tail) else some (.greater, rest)
    else some (.word ((c :: rest).takeWhile isWordByte), (c :: rest).dropWhile isWordByte)

theorem lexHead_spelling {u : Tok (List Byte)} {x : List Byte} (hproper : u.Proper)
    (hends : u.Ends x) : lexHead (u.spelling ++ x) = some (u, x) := by
  cases u with
  | word w =>
    obtain ⟨hne, hall⟩ := hproper
    cases w with
    | nil => exact absurd rfl hne
    | cons c w =>
      have hc := hall c List.mem_cons_self
      simp only [isWordByte, symbols, Bool.and_eq_true, decide_eq_true_eq, List.mem_cons,
        List.not_mem_nil, or_false, not_or] at hc
      obtain ⟨-, h1, h2, h3, h4, h5, h6, h7⟩ := hc
      have htake : x.takeWhile isWordByte = [] ∧ x.dropWhile isWordByte = x := by
        cases x with
        | nil => exact ⟨rfl, rfl⟩
        | cons d x =>
          have hd : isWordByte d = false := hends d rfl
          simp only [List.takeWhile_cons, List.dropWhile_cons, hd, Bool.false_eq_true, if_false,
            and_self]
      rw [Tok.spelling, List.cons_append, lexHead, if_neg h6, if_neg h7, if_neg h2, if_neg h4,
        if_neg h5, if_neg h1, if_neg h3, ← List.cons_append,
        List.takeWhile_append_of_pos hall, List.dropWhile_append_of_pos hall, htake.1, htake.2,
        List.append_nil]
  | greater =>
    have hne : x.head? ≠ some (ch '>') := fun heq => hends _ heq rfl
    have hlex : lexHead (ch '>' :: x) =
        if x.head? = some (ch '>') then some (.append, x.tail) else some (.greater, x) := rfl
    exact hlex.trans (if_neg hne)
  | _ => rfl

theorem spelling_head {u : Tok (List Byte)} (h : u.Proper) :
    ∃ c x, u.spelling = c :: x ∧ isWhite c = false := by
  cases u with
  | word w =>
    obtain ⟨hne, hall⟩ := h
    cases w with
    | nil => exact absurd rfl hne
    | cons c w =>
      have hc := hall c List.mem_cons_self
      simp only [isWordByte, Bool.and_eq_true, Bool.not_eq_true'] at hc
      exact ⟨c, w, rfl, hc.1⟩
  | _ => exact ⟨_, _, rfl, by decide⟩

theorem dropWhile_blank {b x : List Byte} {u : Tok (List Byte)} (hb : ∀ c ∈ b, isWhite c = true)
    (h : u.Proper) : (b ++ (u.spelling ++ x)).dropWhile isWhite = u.spelling ++ x := by
  obtain ⟨c, y, hspell, hc⟩ := spelling_head h
  rw [List.dropWhile_append_of_pos hb, hspell, List.cons_append, List.dropWhile_cons, hc]
  rfl

theorem Spells.unique {x : List Byte} {us us' : List (Tok (List Byte))} (h : Spells x us)
    (h' : Spells x us') : us = us' := by
  -- white space alone has no token
  have hnone : ∀ {b y : List Byte} {u : Tok (List Byte)}, (∀ c ∈ b, isWhite c = true) → u.Proper →
      (∀ c ∈ b ++ (u.spelling ++ y), isWhite c = true) → False := by
    intro b y u hb hu hall
    obtain ⟨c, z, hspell, hc⟩ := spelling_head hu
    have hwhite := hall c (by
      rw [hspell]
      exact List.mem_append_right _ List.mem_cons_self)
    rw [hc] at hwhite
    cases hwhite
  induction h generalizing us' with
  | @nil b hb =>
    generalize hx : b = x at h'
    cases h' with
    | nil => rfl
    | cons hb' hu' _ _ =>
      rw [hx] at hb
      exact (hnone hb' hu' hb).elim
  | @cons b y u us hb hu hends hrest ih =>
    generalize hx : b ++ (u.spelling ++ y) = x at h'
    cases h' with
    | nil hall =>
      rw [← hx] at hall
      exact (hnone hb hu hall).elim
    | cons hb' hu' hends' hrest' => grind [isWhite, dropWhile_blank, lexHead, lexHead_spelling]

end Scan

end CowPaging.Shell
