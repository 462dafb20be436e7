import CowPaging.ShellGrammar

/-!
# The parser of the shell is exact

With the tokens from a position on, the parser is sound and complete for the grammar over
spans; derivations over spans and over texts are the same; and `nulterminate` makes the span of
every word the string that C reads there.
-/

namespace CowPaging.Shell

open Bytes StateExcept

/-! ### Tokens by their code -/

section Parser

variable {line : List Byte} {s fuel : Nat} {ts ts₁ rest : List (Tok Span)} {cmd : Cmd Span}
  {E : Stop → Prop}

/-- The code that `gettoken` returns for a token. -/
def Tok.ret : Tok Span → Byte
  | .word _ => ch 'a'
  | .append => ch '+'
  | .lpar => ch '('
  | .rpar => ch ')'
  | .bar => ch '|'
  | .amp => ch '&'
  | .semi => ch ';'
  | .less => ch '<'
  | .greater => ch '>'

theorem tokOf_some {tok : Token} {t : Tok Span} (h : tokOf tok = some t) :
    tok.ret = t.ret ∧ ∀ w, t = .word w → tok.span = w := by
  unfold tokOf at h
  split at h
  · cases h
  iterate 8
    split at h
    · rename_i hret
      cases h
      exact ⟨hret, fun w hw => by cases hw⟩
  split at h
  · rename_i hret
    cases h
    exact ⟨hret, fun w hw => Tok.word.inj hw⟩
  · cases h

theorem Tok.ret_ne_zero (t : Tok Span) : t.ret ≠ 0 := by
  cases t with
  | word w => exact (by decide : ch 'a' ≠ 0)
  | _ => decide

theorem ret_eq_word {t : Tok Span} (h : t.ret = ch 'a') : ∃ w, t = .word w := by
  cases t with
  | word w => exact ⟨w, rfl⟩
  | _ => exact absurd h (by decide)

theorem starts_redir {t : Tok Span} (h : starts [ch '<', ch '>'] (t :: rest) = true) (w : Span) :
    ∃ r, Redir t w r := by
  cases t with
  | less => exact ⟨_, .less w⟩
  | greater => exact ⟨_, .greater w⟩
  | append => exact ⟨_, .append w⟩
  | _ => exact absurd h (by simp [starts, Tok.code, ch])

theorem tokOf_code {t : Tok Span} {c : Byte} (h : t.code = some c) (hc : c ≠ ch '>') (w : Span) :
    tokOf ⟨c, w⟩ = some t := by
  cases t with
  | word => cases h
  | greater => exact absurd (Option.some.inj h).symm hc
  | append => exact absurd (Option.some.inj h).symm hc
  | _ =>
    cases h
    rfl

/-- A single symbol other than `>` and `>>`. -/
theorem starts_single {t : Tok Span} {c : Byte} (h : starts [c] ts = true) (ht : t.code = some c)
    (hc : c ≠ ch '>') : ∃ rest, ts = t :: rest := by
  cases ts with
  | nil => cases h
  | cons x rest =>
    refine ⟨rest, ?_⟩
    cases hx : x.code with
    | none =>
      rw [starts, hx] at h
      cases h
    | some d =>
      rw [starts, hx] at h
      have hd : d = c := by simpa using h
      rw [hd] at hx
      have heq := (tokOf_code hx hc ⟨0, 0⟩).symm.trans (tokOf_code ht hc ⟨0, 0⟩)
      rw [Option.some.inj heq]

theorem Redir.starts {op : Tok Span} {w : Span} {r : Redirection Span} (h : Redir op w r) :
    starts [ch '<', ch '>'] (op :: rest) = true := by
  cases h with
  | less => rfl
  | greater => rfl
  | append => rfl

/-! ### What is accepted is in the grammar -/

/-- Stops that are not the model's bound. -/
def Reported (e : Stop) : Prop := e ≠ .spin

theorem parseredirs_next {tok file : Token} {op : Tok Span} {w : Span} {r : Redirection Span}
    (hr : Redir op w r) (hop : tok.ret = op.ret) (hfile : file.ret = ch 'a')
    (hspan : file.span = w) :
    (if file.ret ≠ ch 'a' then throw (.panic "missing file for redirection")
      else if tok.ret = ch '<' then parseredirs line fuel (.redir cmd file.span O_RDONLY 0)
      else if tok.ret = ch '>' then
        parseredirs line fuel (.redir cmd file.span (O_WRONLY ||| O_CREATE) 1)
      else if tok.ret = ch '+' then
        parseredirs line fuel (.redir cmd file.span (O_WRONLY ||| O_CREATE) 1)
      else parseredirs line fuel cmd) = parseredirs line fuel (wrap cmd [r]) := by
  rw [if_neg (not_not_intro hfile), hop, hspan]
  cases hr with
  | less => exact if_pos rfl
  | greater => exact (if_neg (by decide)).trans (if_pos rfl)
  | append => exact (if_neg (by decide)).trans ((if_neg (by decide)).trans (if_pos rfl))

theorem wp_parseredirs (hline : 0 ∉ line) (h : At line s ts) (hfuel : ts.length < fuel) :
    wp (parseredirs line fuel cmd) s
      (fun c s' => ∃ ts₁ ts2 rs, ts = ts₁ ++ ts2 ∧ At line s' ts2 ∧ Redirs ts₁ rs ∧
        c = wrap cmd rs)
      Reported := by
  induction fuel generalizing s ts cmd with
  | zero => exact absurd hfuel (Nat.not_lt_zero _)
  | succ fuel ih =>
    rw [parseredirs, wp_bind]
    refine wp_peek hline h (by simp [symbols]) fun s1 h1 => ?_
    cases hst : starts [ch '<', ch '>'] ts with
    | false => exact ⟨[], ts, [], rfl, h1, .nil, rfl⟩
    | true =>
      simp only [if_true, wp_bind]
      cases ts with
      | nil => cases hst
      | cons op ts =>
      refine wp_gettoken_cons h1 fun tok s2 htok h2 => ?_
      cases ts with
      | nil =>
        refine wp_gettoken_nil hline h2 fun file s3 hzero h3 => ?_
        rw [if_pos (by rw [hzero]; decide)]
        exact fun heq => by cases heq
      | cons t ts =>
        refine wp_gettoken_cons h2 fun file s3 hfile h3 => ?_
        by_cases hword : file.ret = ch 'a'
        · obtain ⟨w, rfl⟩ := ret_eq_word ((tokOf_some hfile).1.symm.trans hword)
          obtain ⟨r, hr⟩ := starts_redir hst w
          rw [parseredirs_next hr (tokOf_some htok).1 hword ((tokOf_some hfile).2 w rfl)]
          simp only [List.length_cons] at hfuel
          refine wp_conseq (ih h3 (by omega)) ?_
          rintro c s' ⟨ts₁, ts2, rs, rfl, hat, hrs, rfl⟩
          exact ⟨op :: .word w :: ts₁, ts2, r :: rs, rfl, hat, .cons hr hrs, rfl⟩
        · rw [if_pos hword]
          exact fun heq => by cases heq

theorem wrap_append (c : Cmd Span) (rs rs' : List (Redirection Span)) :
    wrap c (rs ++ rs') = wrap (wrap c rs) rs' := List.foldl_append

theorem setArgv_wrap (argv ws : List Span) (rs : List (Redirection Span)) :
    (wrap (.exec ws) rs).setArgv argv = wrap (.exec argv) rs := by
  have hmove : ∀ (c : Cmd Span), (wrap c rs).setArgv argv = wrap (c.setArgv argv) rs := by
    induction rs with
    | nil => exact fun c => rfl
    | cons r rs ih => exact fun c => ih (.redir c r.file r.mode r.fd)
  exact hmove (.exec ws)

theorem wp_parseargs {argv : List Span} (hline : 0 ∉ line) (h : At line s ts)
    (hfuel : ts.length < fuel) (hargv : argv.length < MAXARGS) :
    wp (parseargs line fuel argv cmd) s
      (fun c s' => ∃ ts₁ ts2 ws rs, ts = ts₁ ++ ts2 ∧ At line s' ts2 ∧ Args ts₁ ws rs ∧
        argv.length + ws.length < MAXARGS ∧ c = (wrap cmd rs).setArgv (argv ++ ws))
      Reported := by
  induction fuel generalizing s ts cmd argv with
  | zero => exact absurd hfuel (Nat.not_lt_zero _)
  | succ fuel ih =>
    have hdone : ∀ s', At line s' ts → ∃ ts₁ ts2 ws rs, ts = ts₁ ++ ts2 ∧ At line s' ts2 ∧
        Args ts₁ ws rs ∧ argv.length + ws.length < MAXARGS ∧
        cmd.setArgv argv = (wrap cmd rs).setArgv (argv ++ ws) := by
      intro s' hat
      refine ⟨[], ts, [], [], rfl, hat, .nil, hargv, ?_⟩
      rw [List.append_nil]
      rfl
    rw [parseargs, wp_bind]
    refine wp_peek hline h (by simp [symbols]) fun s1 h1 => ?_
    cases hst : starts [ch '|', ch ')', ch '&', ch ';'] ts with
    | true => exact hdone s1 h1
    | false =>
      simp only [Bool.false_eq_true, if_false, wp_bind]
      cases ts with
      | nil =>
        refine wp_gettoken_nil hline h1 fun tok s2 hzero h2 => ?_
        rw [if_pos hzero]
        exact hdone s2 h2
      | cons t ts =>
        refine wp_gettoken_cons h1 fun tok s2 htok h2 => ?_
        obtain ⟨hret, hspan⟩ := tokOf_some htok
        rw [if_neg (hret ▸ t.ret_ne_zero)]
        by_cases hword : tok.ret = ch 'a'
        · obtain ⟨w, rfl⟩ := ret_eq_word (hret.symm.trans hword)
          rw [if_neg (not_not_intro hword)]
          by_cases hmany : argv.length + 1 ≥ MAXARGS
          · rw [if_pos hmany]
            exact fun heq => by cases heq
          rw [if_neg hmany, wp_bind]
          rw [List.length_cons] at hfuel
          refine wp_conseq (wp_parseredirs hline h2 (by omega)) ?_
          rintro c s3 ⟨ts₁, ts2, rs, rfl, h3, hrs, rfl⟩
          rw [List.length_append] at hfuel
          refine wp_conseq (ih h3 (by omega) ?_) ?_
          · rw [List.length_append, List.length_singleton]
            omega
          · rintro c s' ⟨ts3, ts4, ws, rs', rfl, hat, hargs, hlen, rfl⟩
            refine ⟨.word w :: (ts₁ ++ ts3), ts4, w :: ws, rs ++ rs', ?_, hat,
              .cons hrs hargs, ?_, ?_⟩
            · rw [List.cons_append, List.append_assoc]
            · rw [List.length_append, List.length_singleton] at hlen
              rw [List.length_cons]
              omega
            · rw [hspan w rfl, wrap_append, ← List.append_cons]
        · rw [if_pos hword]
          exact fun heq => by cases heq

theorem wp_parsebacks (hline : 0 ∉ line) (h : At line s ts) (hfuel : ts.length < fuel) :
    wp (parsebacks line fuel cmd) s
      (fun c s' => ∃ n ts2, ts = List.replicate n .amp ++ ts2 ∧ At line s' ts2 ∧ c = backs n cmd)
      Reported := by
  induction fuel generalizing s ts cmd with
  | zero => exact absurd hfuel (Nat.not_lt_zero _)
  | succ fuel ih =>
    rw [parsebacks, wp_bind]
    refine wp_peek hline h (by simp [symbols]) fun s1 h1 => ?_
    cases hst : starts [ch '&'] ts with
    | false => exact ⟨0, ts, rfl, h1, rfl⟩
    | true =>
      simp only [if_true, wp_bind]
      obtain ⟨ts, rfl⟩ := starts_single (t := .amp) hst rfl (by decide)
      refine wp_gettoken_cons h1 fun tok s2 _ h2 => ?_
      rw [List.length_cons] at hfuel
      refine wp_conseq (ih h2 (by omega)) ?_
      rintro c s' ⟨n, ts2, rfl, hat, rfl⟩
      exact ⟨n + 1, ts2, rfl, hat, rfl⟩

/-- The parser of a nonterminal, with the turns it takes for `n` tokens. -/
def parser (line : List Byte) (fuel : Nat) : Nonterminal → P (Cmd Span)
  | .line => parseline line fuel
  | .pipe => parsepipe line fuel
  | .exec => parseexec line fuel

def turns (n : Nat) : Nonterminal → Nat
  | .line => 4 * n + 4
  | .pipe => 4 * n + 3
  | .exec => 4 * n + 2

theorem parser_sound (hline : 0 ∉ line) (a : Nonterminal) (h : At line s ts)
    (hfuel : turns ts.length a ≤ fuel) :
    wp (parser line fuel a) s
      (fun c s' => ∃ ts₁ ts2, ts = ts₁ ++ ts2 ∧ At line s' ts2 ∧ Derives a ts₁ c) Reported := by
  induction fuel using Nat.strongRecOn generalizing s ts a with
  | ind fuel ih =>
    obtain ⟨fuel, rfl⟩ : ∃ k, fuel = k + 1 := ⟨fuel - 1, by cases a <;> simp only [turns] at hfuel <;> omega⟩
    cases a with
    | line =>
      simp only [turns] at hfuel
      rw [parser, parseline, wp_bind]
      refine wp_conseq (ih fuel (Nat.lt_succ_self _) .pipe h (by rw [turns]; omega)) ?_
      rintro c s1 ⟨ts₁, ts2, rfl, h1, hd⟩
      rw [List.length_append] at hfuel
      rw [wp_bind]
      refine wp_conseq (wp_parsebacks hline h1 (by omega)) ?_
      rintro c' s2 ⟨n, ts3, rfl, h2, rfl⟩
      rw [wp_bind]
      refine wp_peek hline h2 (by simp [symbols]) fun s3 h3 => ?_
      cases hst : starts [ch ';'] ts3 with
      | false => exact ⟨ts₁ ++ List.replicate n .amp, ts3, (List.append_assoc _ _ _).symm, h3, .line n hd⟩
      | true =>
        simp only [if_true, wp_bind]
        obtain ⟨ts4, rfl⟩ := starts_single (t := .semi) hst rfl (by decide)
        refine wp_gettoken_cons h3 fun tok s4 _ h4 => ?_
        rw [List.length_append, List.length_cons] at hfuel
        refine wp_conseq (ih fuel (Nat.lt_succ_self _) .line h4 (by rw [turns]; omega)) ?_
        rintro c'' s5 ⟨ts5, ts6, rfl, h5, hd'⟩
        refine ⟨ts₁ ++ List.replicate n .amp ++ .semi :: ts5, ts6, ?_, h5, .seq n hd hd'⟩
        simp only [List.append_assoc, List.cons_append]
    | pipe =>
      simp only [turns] at hfuel
      rw [parser, parsepipe, wp_bind]
      refine wp_conseq (ih fuel (Nat.lt_succ_self _) .exec h (by rw [turns]; omega)) ?_
      rintro c s1 ⟨ts₁, ts2, rfl, h1, hd⟩
      rw [List.length_append] at hfuel
      rw [wp_bind]
      refine wp_peek hline h1 (by simp [symbols]) fun s2 h2 => ?_
      cases hst : starts [ch '|'] ts2 with
      | false => exact ⟨ts₁, ts2, rfl, h2, .pipe hd⟩
      | true =>
        simp only [if_true, wp_bind]
        obtain ⟨ts3, rfl⟩ := starts_single (t := .bar) hst rfl (by decide)
        refine wp_gettoken_cons h2 fun tok s3 _ h3 => ?_
        rw [List.length_cons] at hfuel
        refine wp_conseq (ih fuel (Nat.lt_succ_self _) .pipe h3 (by rw [turns]; omega)) ?_
        rintro c' s4 ⟨ts4, ts5, rfl, h4, hd'⟩
        refine ⟨ts₁ ++ .bar :: ts4, ts5, ?_, h4, .bar hd hd'⟩
        rw [List.append_assoc, List.cons_append]
    | exec =>
      simp only [turns] at hfuel
      rw [parser, parseexec, wp_bind]
      refine wp_peek hline h (by simp [symbols]) fun s1 h1 => ?_
      cases hst : starts [ch '('] ts with
      | false =>
        simp only [Bool.false_eq_true, if_false, wp_bind]
        refine wp_conseq (wp_parseredirs hline h1 (by omega)) ?_
        rintro c s2 ⟨ts₁, ts2, rs, rfl, h2, hrs, rfl⟩
        rw [List.length_append] at hfuel
        refine wp_conseq (wp_parseargs hline h2 (by omega) (by decide)) ?_
        rintro c s3 ⟨ts3, ts4, ws, rs', rfl, h3, hargs, hlen, rfl⟩
        refine ⟨ts₁ ++ ts3, ts4, (List.append_assoc _ _ _).symm, h3, ?_⟩
        rw [← wrap_append, setArgv_wrap, List.nil_append]
        exact .words hrs hargs (by simpa using hlen)
      | true =>
        simp only [if_true]
        obtain ⟨ts, rfl⟩ := starts_single (t := .lpar) hst rfl (by decide)
        rw [List.length_cons] at hfuel
        obtain ⟨k, rfl⟩ : ∃ k, fuel = k + 1 := ⟨fuel - 1, by omega⟩
        rw [parseblock, wp_bind]
        refine wp_peek hline h1 (by simp [symbols]) fun s2 h2 => ?_
        simp only [hst, if_true, wp_bind]
        refine wp_gettoken_cons h2 fun tok s3 _ h3 => ?_
        refine wp_conseq (ih k (by omega) .line h3 (by rw [turns]; omega)) ?_
        rintro c s4 ⟨ts₁, ts2, rfl, h4, hd⟩
        refine wp_peek hline h4 (by simp [symbols]) fun s5 h5 => ?_
        cases hst' : starts [ch ')'] ts2 with
        | false => exact fun heq => by cases heq
        | true =>
          simp only [if_true, wp_bind]
          obtain ⟨ts3, rfl⟩ := starts_single (t := .rpar) hst' rfl (by decide)
          refine wp_gettoken_cons h5 fun tok s6 _ h6 => ?_
          rw [List.length_append, List.length_cons] at hfuel
          refine wp_conseq (wp_parseredirs hline h6 (by omega)) ?_
          rintro c' s7 ⟨ts4, ts5, rs, rfl, h7, hrs, rfl⟩
          refine ⟨.lpar :: (ts₁ ++ .rpar :: ts4), ts5, ?_, h7, .block hd hrs⟩
          simp only [List.cons_append, List.append_assoc]

/-! ### What is in the grammar is accepted -/

theorem starts_mono {cs ds : List Byte} (h : starts cs ts = true) (hsub : ∀ c ∈ cs, c ∈ ds) :
    starts ds ts = true := by
  cases ts with
  | nil => cases h
  | cons t rest =>
    rw [starts] at h ⊢
    cases hc : t.code with
    | none =>
      rw [hc] at h
      cases h
    | some c => grind

theorem starts_disjoint {cs ds : List Byte} (h : starts cs ts = true) (hdis : ∀ c ∈ cs, c ∉ ds) :
    starts ds ts = false := by
  cases ts with
  | nil => rfl
  | cons t rest =>
    rw [starts] at h ⊢
    cases hc : t.code with
    | none => rfl
    | some c => grind

/-- A parser takes as much as it can: what follows must not belong to it. -/
def closers : Nonterminal → List Byte
  | .line => [ch ')']
  | .pipe => [ch ')', ch '&', ch ';']
  | .exec => [ch '|', ch ')', ch '&', ch ';']

def Closes (a : Nonterminal) (ts : List (Tok Span)) : Prop := ts = [] ∨ starts (closers a) ts = true

theorem Closes.not_starts {a : Nonterminal} {ds : List Byte} (h : Closes a ts)
    (hdis : ∀ c ∈ closers a, c ∉ ds) : starts ds ts = false := by
  rcases h with rfl | h
  · rfl
  · exact starts_disjoint h hdis

theorem Closes.weaken {a b : Nonterminal} (h : Closes a ts) (hsub : ∀ c ∈ closers a, c ∈ closers b) :
    Closes b ts := h.imp id fun h => starts_mono h hsub

/-- No stop at all. -/
def Never (_ : Stop) : Prop := False

theorem Redirs.parsed {rs : List (Redirection Span)} (hrs : Redirs ts₁ rs) (hline : 0 ∉ line)
    (h : At line s (ts₁ ++ rest)) (hrest : starts [ch '<', ch '>'] rest = false)
    (hfuel : ts₁.length < fuel) :
    wp (parseredirs line fuel cmd) s (fun c s' => c = wrap cmd rs ∧ At line s' rest) Never := by
  induction hrs generalizing s fuel cmd with
  | nil =>
    obtain ⟨fuel, rfl⟩ : ∃ k, fuel = k + 1 := ⟨fuel - 1, by rw [List.length_nil] at hfuel; omega⟩
    rw [parseredirs, wp_bind]
    refine wp_peek hline h (by simp [symbols]) fun s1 h1 => ?_
    rw [List.nil_append] at h1 ⊢
    rw [hrest]
    exact ⟨rfl, h1⟩
  | @cons op w r ts rs hr hrs ih =>
    obtain ⟨fuel, rfl⟩ : ∃ k, fuel = k + 1 := ⟨fuel - 1, by omega⟩
    simp only [List.length_cons] at hfuel
    rw [parseredirs, wp_bind]
    refine wp_peek hline h (by simp [symbols]) fun s1 h1 => ?_
    rw [List.cons_append, hr.starts]
    simp only [if_true, wp_bind]
    refine wp_gettoken_cons h1 fun tok s2 htok h2 => ?_
    refine wp_gettoken_cons h2 fun file s3 hfile h3 => ?_
    obtain ⟨hret, hspan⟩ := tokOf_some hfile
    rw [parseredirs_next hr (tokOf_some htok).1 hret (hspan w rfl)]
    exact ih h3 (by omega)

theorem Args.not_redir {ws : List Span} {rs : List (Redirection Span)} (h : Args ts₁ ws rs)
    (hrest : Closes .exec rest) : starts [ch '<', ch '>'] (ts₁ ++ rest) = false := by
  cases h with
  | nil => exact hrest.not_starts (by decide)
  | cons _ _ => rfl

theorem Args.parsed {ws argv : List Span} {rs : List (Redirection Span)} (ha : Args ts₁ ws rs)
    (hline : 0 ∉ line) (h : At line s (ts₁ ++ rest)) (hrest : Closes .exec rest)
    (hlen : argv.length + ws.length < MAXARGS) (hfuel : ts₁.length < fuel) :
    wp (parseargs line fuel argv cmd) s
      (fun c s' => c = (wrap cmd rs).setArgv (argv ++ ws) ∧ At line s' rest) Never := by
  induction ha generalizing s fuel cmd argv with
  | nil =>
    obtain ⟨fuel, rfl⟩ : ∃ k, fuel = k + 1 := ⟨fuel - 1, by rw [List.length_nil] at hfuel; omega⟩
    rw [parseargs, wp_bind, List.append_nil]
    refine wp_peek hline h (by simp [symbols]) fun s1 h1 => ?_
    rw [List.nil_append] at h1 ⊢
    rcases hrest with rfl | hst
    · simp only [starts, Bool.false_eq_true, if_false, wp_bind]
      refine wp_gettoken_nil hline h1 fun tok s2 hzero h2 => ?_
      rw [if_pos hzero]
      exact ⟨rfl, h2⟩
    · rw [closers] at hst
      rw [hst]
      exact ⟨rfl, h1⟩
  | @cons w ts ts' ws rs rs' hrs ha ih =>
    obtain ⟨fuel, rfl⟩ : ∃ k, fuel = k + 1 := ⟨fuel - 1, by omega⟩
    simp only [List.length_cons, List.length_append] at hfuel hlen
    rw [parseargs, wp_bind]
    refine wp_peek hline h (by simp [symbols]) fun s1 h1 => ?_
    have hst : starts [ch '|', ch ')', ch '&', ch ';'] (.word w :: (ts ++ ts') ++ rest) = false :=
      rfl
    rw [hst]
    simp only [Bool.false_eq_true, if_false, wp_bind]
    rw [List.cons_append, List.append_assoc] at h1
    refine wp_gettoken_cons h1 fun tok s2 htok h2 => ?_
    obtain ⟨hret, hspan⟩ := tokOf_some htok
    have hret' : tok.ret = ch 'a' := hret
    have hmany : ¬ argv.length + 1 ≥ MAXARGS := by omega
    rw [if_neg (hret ▸ Tok.ret_ne_zero _), if_neg (not_not_intro hret'), if_neg hmany, wp_bind]
    refine wp_conseq (hrs.parsed hline h2 (ha.not_redir hrest) (by omega)) ?_
    rintro c s3 ⟨rfl, h3⟩
    rw [hspan w rfl, wrap_append, List.append_cons argv w ws]
    have hlen' : (argv ++ [w]).length + ws.length < MAXARGS := by
      rw [List.length_append, List.length_singleton]
      omega
    have hfuel' : ts'.length < fuel := by omega
    exact ih h3 hlen' hfuel'

theorem backs_parsed {n : Nat} (hline : 0 ∉ line) (h : At line s (List.replicate n .amp ++ rest))
    (hrest : starts [ch '&'] rest = false) (hfuel : n < fuel) :
    wp (parsebacks line fuel cmd) s (fun c s' => c = backs n cmd ∧ At line s' rest) Never := by
  induction n generalizing s fuel cmd with
  | zero =>
    obtain ⟨fuel, rfl⟩ : ∃ k, fuel = k + 1 := ⟨fuel - 1, by omega⟩
    rw [parsebacks, wp_bind]
    refine wp_peek hline h (by simp [symbols]) fun s1 h1 => ?_
    rw [List.replicate_zero, List.nil_append] at h1 ⊢
    rw [hrest]
    exact ⟨rfl, h1⟩
  | succ n ih =>
    obtain ⟨fuel, rfl⟩ : ∃ k, fuel = k + 1 := ⟨fuel - 1, by omega⟩
    rw [parsebacks, wp_bind]
    refine wp_peek hline h (by simp [symbols]) fun s1 h1 => ?_
    have hst : starts [ch '&'] (List.replicate (n + 1) .amp ++ rest) = true := rfl
    rw [hst]
    simp only [if_true, wp_bind]
    refine wp_gettoken_cons h1 fun tok s2 _ h2 => ?_
    exact ih h2 (by omega)

/-- What closes a line, after any number of `&`, closes a pipe. -/
theorem Closes.backs {n : Nat} (h : Closes .pipe rest) :
    Closes .pipe (List.replicate n .amp ++ rest) := by
  cases n with
  | zero => exact h
  | succ n => exact .inr rfl

theorem Derives.parsed {a : Nonterminal} {c : Cmd Span} (hd : Derives a ts₁ c) (hline : 0 ∉ line)
    (h : At line s (ts₁ ++ rest)) (hrest : Closes a rest) (hfuel : turns ts₁.length a ≤ fuel) :
    wp (parser line fuel a) s (fun c' s' => c' = c ∧ At line s' rest) Never := by
  induction hd generalizing s fuel rest with
  | @line ts c n hd ih =>
    simp only [turns, List.length_append, List.length_replicate] at hfuel
    obtain ⟨fuel, rfl⟩ : ∃ k, fuel = k + 1 := ⟨fuel - 1, by omega⟩
    rw [parser, parseline, wp_bind]
    rw [List.append_assoc] at h
    have hpipe : Closes .pipe rest := hrest.weaken (by decide)
    refine wp_conseq (ih h hpipe.backs (by rw [turns]; omega)) ?_
    rintro c' s1 ⟨rfl, h1⟩
    rw [wp_bind]
    refine wp_conseq (backs_parsed hline h1 (hrest.not_starts (by decide)) (by omega)) ?_
    rintro c' s2 ⟨rfl, h2⟩
    rw [wp_bind]
    refine wp_peek hline h2 (by simp [symbols]) fun s3 h3 => ?_
    rw [hrest.not_starts (by decide)]
    exact ⟨rfl, h3⟩
  | @seq ts ts' c c' n hd hd' ih ih' =>
    simp only [turns, List.length_append, List.length_replicate, List.length_cons] at hfuel
    obtain ⟨fuel, rfl⟩ : ∃ k, fuel = k + 1 := ⟨fuel - 1, by omega⟩
    rw [parser, parseline, wp_bind]
    rw [List.append_assoc, List.append_assoc, List.cons_append] at h
    have hpipe : Closes .pipe (.semi :: (ts' ++ rest)) := .inr rfl
    refine wp_conseq (ih h hpipe.backs (by rw [turns]; omega)) ?_
    rintro x s1 ⟨rfl, h1⟩
    rw [wp_bind]
    refine wp_conseq (backs_parsed hline h1 rfl (by omega)) ?_
    rintro x s2 ⟨rfl, h2⟩
    rw [wp_bind]
    refine wp_peek hline h2 (by simp [symbols]) fun s3 h3 => ?_
    have hst : starts [ch ';'] (.semi :: (ts' ++ rest)) = true := rfl
    rw [hst]
    simp only [if_true, wp_bind]
    refine wp_gettoken_cons h3 fun tok s4 _ h4 => ?_
    refine wp_conseq (ih' h4 hrest (by rw [turns]; omega)) ?_
    rintro x s5 ⟨rfl, h5⟩
    exact ⟨rfl, h5⟩
  | @pipe ts c hd ih =>
    simp only [turns] at hfuel
    obtain ⟨fuel, rfl⟩ : ∃ k, fuel = k + 1 := ⟨fuel - 1, by omega⟩
    rw [parser, parsepipe, wp_bind]
    refine wp_conseq (ih h (hrest.weaken (by decide)) (by rw [turns]; omega)) ?_
    rintro x s1 ⟨rfl, h1⟩
    rw [wp_bind]
    refine wp_peek hline h1 (by simp [symbols]) fun s2 h2 => ?_
    rw [hrest.not_starts (by decide)]
    exact ⟨rfl, h2⟩
  | @bar ts ts' c c' hd hd' ih ih' =>
    simp only [turns, List.length_append, List.length_cons] at hfuel
    obtain ⟨fuel, rfl⟩ : ∃ k, fuel = k + 1 := ⟨fuel - 1, by omega⟩
    rw [parser, parsepipe, wp_bind]
    rw [List.append_assoc, List.cons_append] at h
    refine wp_conseq (ih h (.inr rfl) (by rw [turns]; omega)) ?_
    rintro x s1 ⟨rfl, h1⟩
    rw [wp_bind]
    refine wp_peek hline h1 (by simp [symbols]) fun s2 h2 => ?_
    have hst : starts [ch '|'] (.bar :: (ts' ++ rest)) = true := rfl
    rw [hst]
    simp only [if_true, wp_bind]
    refine wp_gettoken_cons h2 fun tok s3 _ h3 => ?_
    refine wp_conseq (ih' h3 hrest (by rw [turns]; omega)) ?_
    rintro x s4 ⟨rfl, h4⟩
    exact ⟨rfl, h4⟩
  | @block ts ts' c rs hd hrs ih =>
    simp only [turns, List.length_append, List.length_cons] at hfuel
    obtain ⟨fuel, rfl⟩ : ∃ k, fuel = k + 2 := ⟨fuel - 2, by omega⟩
    rw [List.cons_append, List.append_assoc, List.cons_append] at h
    have hst : starts [ch '('] (.lpar :: (ts ++ .rpar :: (ts' ++ rest))) = true := rfl
    rw [parser, parseexec, wp_bind]
    refine wp_peek hline h (by simp [symbols]) fun s1 h1 => ?_
    rw [hst]
    simp only [if_true]
    rw [parseblock, wp_bind]
    refine wp_peek hline h1 (by simp [symbols]) fun s2 h2 => ?_
    rw [hst]
    simp only [if_true, wp_bind]
    refine wp_gettoken_cons h2 fun tok s3 _ h3 => ?_
    refine wp_conseq (ih h3 (.inr rfl) (by rw [turns]; omega)) ?_
    rintro x s4 ⟨rfl, h4⟩
    refine wp_peek hline h4 (by simp [symbols]) fun s5 h5 => ?_
    have hst' : starts [ch ')'] (.rpar :: (ts' ++ rest)) = true := rfl
    rw [hst']
    simp only [if_true, wp_bind]
    refine wp_gettoken_cons h5 fun tok s6 _ h6 => ?_
    exact hrs.parsed hline h6 (hrest.not_starts (by decide)) (by omega)
  | @words ts ts' ws rs rs' hrs ha hlen =>
    simp only [turns, List.length_append] at hfuel
    obtain ⟨fuel, rfl⟩ : ∃ k, fuel = k + 1 := ⟨fuel - 1, by omega⟩
    rw [List.append_assoc] at h
    rw [parser, parseexec, wp_bind]
    refine wp_peek hline h (by simp [symbols]) fun s1 h1 => ?_
    have hst : starts [ch '('] (ts ++ (ts' ++ rest)) = false := by
      cases hrs with
      | cons hr _ => exact starts_disjoint hr.starts (by decide)
      | nil =>
        cases ha with
        | cons _ _ => rfl
        | nil => exact hrest.not_starts (by decide)
    rw [hst]
    simp only [Bool.false_eq_true, if_false, wp_bind]
    refine wp_conseq (hrs.parsed hline h1 (ha.not_redir hrest) (by omega)) ?_
    rintro x s2 ⟨rfl, h2⟩
    have hfuel' : ts'.length < fuel := by omega
    have hlen' : ([] : List Span).length + ws.length < MAXARGS := by
      rw [List.length_nil]
      omega
    refine wp_conseq (ha.parsed hline h2 hrest hlen' hfuel') ?_
    rintro x s3 ⟨rfl, h3⟩
    refine ⟨?_, h3⟩
    rw [← wrap_append, setArgv_wrap, List.nil_append]

end Parser

/-! ### From texts to spans -/

section Lift

variable {W V : Type} {f : W → V} {ts : List (Tok W)}

def Redirection.map (f : W → V) (r : Redirection W) : Redirection V := ⟨f r.file, r.mode, r.fd⟩

theorem map_wrap (c : Cmd W) (rs : List (Redirection W)) :
    (wrap c rs).map f = wrap (c.map f) (rs.map (Redirection.map f)) := by
  induction rs generalizing c with
  | nil => rfl
  | cons r rs ih => exact ih _

theorem map_backs (n : Nat) (c : Cmd W) : (backs n c).map f = backs n (c.map f) := by
  induction n generalizing c with
  | zero => rfl
  | succ n ih => exact ih _

theorem map_eq_word {t : Tok W} {v : V} (h : t.map f = .word v) : ∃ w, t = .word w ∧ f w = v := by
  cases t with
  | word w => exact ⟨w, rfl, Tok.word.inj h⟩
  | _ => cases h

theorem map_inj {t u : Tok W} (h : t.map f = u.map f) (hu : ∀ w, u ≠ .word w) : t = u := by
  cases u with
  | word w => exact absurd rfl (hu w)
  | _ =>
    cases t <;>
      first
      | rfl
      | exact absurd h (by simp [Tok.map])

theorem Redir.lift {t : Tok W} {w : W} {v : Redirection V} (h : Redir (t.map f) (f w) v) :
    ∃ r, Redir t w r ∧ v = r.map f := by
  generalize hu : t.map f = u at h
  cases h with
  | less =>
    obtain rfl := map_inj (u := .less) hu fun _ hx => by cases hx
    exact ⟨_, .less w, rfl⟩
  | greater =>
    obtain rfl := map_inj (u := .greater) hu fun _ hx => by cases hx
    exact ⟨_, .greater w, rfl⟩
  | append =>
    obtain rfl := map_inj (u := .append) hu fun _ hx => by cases hx
    exact ⟨_, .append w, rfl⟩

theorem Redirs.lift {vs : List (Redirection V)} (h : Redirs (ts.map (Tok.map f)) vs) :
    ∃ rs, Redirs ts rs ∧ vs = rs.map (Redirection.map f) := by
  generalize hx : ts.map (Tok.map f) = us at h
  induction h generalizing ts with
  | nil =>
    rw [List.map_eq_nil_iff.1 hx]
    exact ⟨[], .nil, rfl⟩
  | @cons u v r us vs hr hrs ih =>
    obtain ⟨t, ts, rfl, rfl, h1⟩ := List.map_eq_cons_iff.1 hx
    obtain ⟨t', ts, rfl, hword, h2⟩ := List.map_eq_cons_iff.1 h1
    obtain ⟨w, rfl, rfl⟩ := map_eq_word hword
    obtain ⟨r', hr', rfl⟩ := hr.lift
    obtain ⟨rs, hrs', rfl⟩ := ih h2
    exact ⟨r' :: rs, .cons hr' hrs', rfl⟩

theorem Args.lift {vs : List V} {us : List (Redirection V)}
    (h : Args (ts.map (Tok.map f)) vs us) :
    ∃ ws rs, Args ts ws rs ∧ vs = ws.map f ∧ us = rs.map (Redirection.map f) := by
  generalize hx : ts.map (Tok.map f) = xs at h
  induction h generalizing ts with
  | nil =>
    rw [List.map_eq_nil_iff.1 hx]
    exact ⟨[], [], .nil, rfl, rfl⟩
  | @cons v xs xs' vs us us' hrs ha ih =>
    obtain ⟨t, ts, rfl, hword, h1⟩ := List.map_eq_cons_iff.1 hx
    obtain ⟨w, rfl, rfl⟩ := map_eq_word hword
    obtain ⟨ts₁, ts2, rfl, rfl, h2⟩ := List.map_eq_append_iff.1 h1
    obtain ⟨rs, hrs', rfl⟩ := hrs.lift
    obtain ⟨ws, rs', ha', rfl, rfl⟩ := ih h2
    exact ⟨w :: ws, rs ++ rs', .cons hrs' ha', rfl, List.map_append.symm⟩

theorem amps_of_map {n : Nat} (h : ts.map (Tok.map f) = List.replicate n .amp) :
    ts = List.replicate n .amp := by
  refine List.eq_replicate_iff.2 ⟨?_, fun t ht => ?_⟩
  · have hlen := congrArg List.length h
    rwa [List.length_map, List.length_replicate] at hlen
  · have hmem := List.mem_map_of_mem (f := Tok.map f) ht
    rw [h] at hmem
    exact map_inj (u := .amp) (List.eq_of_mem_replicate hmem) fun _ hx => by cases hx

theorem Derives.lift {a : Nonterminal} {c : Cmd V} (h : Derives a (ts.map (Tok.map f)) c) :
    ∃ c', Derives a ts c' ∧ c = c'.map f := by
  generalize hx : ts.map (Tok.map f) = us at h
  induction h generalizing ts with
  | @line us c n hd ih =>
    obtain ⟨ts₁, ts2, rfl, h1, hamps⟩ := List.map_eq_append_iff.1 hx
    obtain ⟨d, hd', rfl⟩ := ih h1
    obtain rfl := amps_of_map hamps
    exact ⟨backs n d, .line n hd', (map_backs n d).symm⟩
  | @seq us us' c c' n _ _ ih ih' =>
    obtain ⟨ts₁, ts2, rfl, h1, h2⟩ := List.map_eq_append_iff.1 hx
    obtain ⟨ts3, ts4, rfl, h3, hamps⟩ := List.map_eq_append_iff.1 h1
    obtain ⟨t, ts5, rfl, ht, h4⟩ := List.map_eq_cons_iff.1 h2
    obtain rfl := map_inj (u := .semi) ht fun _ hx => by cases hx
    obtain rfl := amps_of_map hamps
    obtain ⟨d, hd, rfl⟩ := ih h3
    obtain ⟨d', hd', rfl⟩ := ih' h4
    refine ⟨.list (backs n d) d', .seq n hd hd', ?_⟩
    rw [Cmd.map, map_backs]
  | @pipe us c _ ih =>
    obtain ⟨d, hd, rfl⟩ := ih hx
    exact ⟨d, .pipe hd, rfl⟩
  | @bar us us' c c' _ _ ih ih' =>
    obtain ⟨ts₁, ts2, rfl, h1, h2⟩ := List.map_eq_append_iff.1 hx
    obtain ⟨t, ts3, rfl, ht, h3⟩ := List.map_eq_cons_iff.1 h2
    obtain rfl := map_inj (u := .bar) ht fun _ hx => by cases hx
    obtain ⟨d, hd, rfl⟩ := ih h1
    obtain ⟨d', hd', rfl⟩ := ih' h3
    exact ⟨.pipe d d', .bar hd hd', rfl⟩
  | @block us us' c rs _ hrs ih =>
    obtain ⟨t, ts, rfl, ht, h1⟩ := List.map_eq_cons_iff.1 hx
    obtain rfl := map_inj (u := .lpar) ht fun _ hx => by cases hx
    obtain ⟨ts₁, ts2, rfl, h2, h3⟩ := List.map_eq_append_iff.1 h1
    obtain ⟨t, ts3, rfl, ht, rfl⟩ := List.map_eq_cons_iff.1 h3
    obtain rfl := map_inj (u := .rpar) ht fun _ hx => by cases hx
    obtain ⟨d, hd, rfl⟩ := ih h2
    obtain ⟨rs', hrs', rfl⟩ := hrs.lift
    exact ⟨wrap d rs', .block hd hrs', (map_wrap d rs').symm⟩
  | @words us us' ws rs rs' hrs ha hlen =>
    obtain ⟨ts₁, ts2, rfl, rfl, rfl⟩ := List.map_eq_append_iff.1 hx
    obtain ⟨qs, hqs, rfl⟩ := hrs.lift
    obtain ⟨vs, qs', ha', rfl, rfl⟩ := ha.lift
    rw [List.length_map] at hlen
    refine ⟨wrap (.exec vs) (qs ++ qs'), .words hqs ha' hlen, ?_⟩
    rw [map_wrap, List.map_append]
    rfl

theorem Redirs.map {rs : List (Redirection W)} (h : Redirs ts rs) (f : W → V) :
    Redirs (ts.map (Tok.map f)) (rs.map (Redirection.map f)) := by
  induction h with
  | nil => exact .nil
  | cons hr _ ih =>
    refine .cons ?_ ih
    cases hr with
    | less w => exact .less _
    | greater w => exact .greater _
    | append w => exact .append _

theorem Args.map {ws : List W} {rs : List (Redirection W)} (h : Args ts ws rs) (f : W → V) :
    Args (ts.map (Tok.map f)) (ws.map f) (rs.map (Redirection.map f)) := by
  induction h with
  | nil => exact .nil
  | cons hrs _ ih =>
    rw [List.map_cons, List.map_append, List.map_append]
    exact .cons (hrs.map f) ih

theorem Derives.map {a : Nonterminal} {c : Cmd W} (h : Derives a ts c) (f : W → V) :
    Derives a (ts.map (Tok.map f)) (c.map f) := by
  induction h with
  | line n _ ih =>
    rw [List.map_append, List.map_replicate, map_backs]
    exact .line n ih
  | seq n _ _ ih ih' =>
    rw [List.map_append, List.map_append, List.map_replicate, Cmd.map, map_backs]
    exact .seq n ih ih'
  | pipe _ ih => exact .pipe ih
  | bar _ _ ih ih' =>
    rw [List.map_append]
    exact .bar ih ih'
  | block _ hrs ih =>
    rw [List.map_cons, List.map_append, map_wrap]
    exact .block ih (hrs.map f)
  | words hrs ha hlen =>
    rw [List.map_append, map_wrap, List.map_append]
    exact .words (hrs.map f) (ha.map f) (by rwa [List.length_map])

end Lift

/-! ### The strings after `nulterminate` -/

/-- The words of a command. -/
def Cmd.words {W : Type} : Cmd W → List W
  | .exec argv => argv
  | .redir cmd file _ _ => cmd.words ++ [file]
  | .pipe left right => left.words ++ right.words
  | .list left right => left.words ++ right.words
  | .back cmd => cmd.words

/-- The string that C reads at `q`, in a buffer with a NUL within `k` bytes. -/
def cstr (m : Nat → Byte) : Nat → Nat → List Byte
  | 0, _ => []
  | k + 1, q => if m q = 0 then [] else m q :: cstr m k (q + 1)

section Strings

variable {line : List Byte} {s i : Nat} {ts : List (Tok Span)} {cmd : Cmd Span} {w : Span}

theorem cleared_append {l1 l2 : List Nat} {c : Byte} :
    (if i ∈ l2 then 0 else if i ∈ l1 then 0 else c) = if i ∈ l1 ++ l2 then 0 else c := by
  by_cases h1 : i ∈ l1 <;> by_cases h2 : i ∈ l2 <;> simp [h1, h2]

theorem nulterminate_apply (cmd : Cmd Span) (m : Nat → Byte) (i : Nat) :
    nulterminate cmd m i = if i ∈ cmd.words.map Span.eq then 0 else m i := by
  induction cmd generalizing m with
  | exec argv =>
    rw [nulterminate, Cmd.words]
    induction argv generalizing m with
    | nil => rfl
    | cons w argv ih =>
      rw [List.foldl_cons, ih, List.map_cons, ← List.singleton_append, ← cleared_append]
      simp only [Function.update_apply, List.mem_singleton]
  | redir cmd file mode fd ih =>
    rw [nulterminate, Cmd.words, Function.update_apply, ih, List.map_append, ← cleared_append]
    simp only [List.map_cons, List.map_nil, List.mem_singleton]
  | pipe left right ihl ihr =>
    rw [nulterminate, Cmd.words, ihr, ihl, List.map_append, cleared_append]
  | list left right ihl ihr =>
    rw [nulterminate, Cmd.words, ihr, ihl, List.map_append, cleared_append]
  | back cmd ih => exact ih m

/-- A word of the line: as long as the word bytes go. -/
structure IsWord (line : List Byte) (w : Span) : Prop where
  le : w.q ≤ w.eq
  bound : w.eq ≤ line.length
  all : ∀ i, w.q ≤ i → i < w.eq → isWordByte (charAt line i) = true
  stop : w.eq = line.length ∨ isWordByte (charAt line w.eq) = false

theorem scan_q (line : List Byte) (s : Nat) : (scan line s).span.q = skip line isWhite s := by
  rw [scan]
  split
  · rfl
  split
  · rfl
  split
  · split
    · rfl
    · rfl
  · rfl

theorem charAt_mem_text {e : Nat} (h1 : s ≤ i) (h2 : i < e) (he : e ≤ line.length) :
    charAt line i ∈ text line ⟨s, e⟩ := by
  have hi : i < line.length := by omega
  refine List.mem_iff_getElem.2 ⟨i - s, ?_, ?_⟩
  · rw [text, List.length_take, List.length_drop]
    dsimp only
    omega
  · simp only [text, List.getElem_take, List.getElem_drop, Nat.add_sub_cancel' h1]
    rw [charAt, List.getD_eq_getElem?_getD, List.getElem?_eq_getElem hi]
    rfl

theorem isWord_of_scan (hline : 0 ∉ line) (hs : s ≤ line.length)
    (h : tokOf (scan line s) = some (.word w)) : IsWord line w := by
  rcases scan_cases hline hs with ⟨hnone, -⟩ | ⟨t, hsome, hscan⟩
  · rw [h] at hnone
    cases hnone
  · obtain rfl := Option.some.inj (h.symm.trans hsome)
    have hspan := (tokOf_some h).2 w rfl
    have hq := scan_q line s
    rw [hspan] at hscan hq
    have hlt := hscan.lt
    refine ⟨by omega, hscan.le, fun i h1 h2 => ?_, ?_⟩
    · exact hscan.proper.2 _ (charAt_mem_text h1 h2 hscan.le)
    · rcases Nat.eq_or_lt_of_le hscan.le with heq | hlt'
      · exact .inl heq
      · refine .inr (hscan.ends _ ?_)
        rw [drop_eq_cons hlt']
        rfl

theorem At.isWord (hline : 0 ∉ line) (h : At line s ts) (hw : .word w ∈ ts) : IsWord line w := by
  induction h with
  | nil => cases hw
  | cons hs hsome _ ih =>
    rcases List.mem_cons.1 hw with rfl | hw
    · exact isWord_of_scan hline hs hsome
    · exact ih hw

theorem mem_words_wrap {c : Cmd Span} {rs : List (Redirection Span)} :
    w ∈ (wrap c rs).words ↔ w ∈ c.words ∨ w ∈ rs.map Redirection.file := by
  induction rs generalizing c with
  | nil => simp [wrap]
  | cons r rs ih =>
    rw [wrap, List.foldl_cons, ← wrap, ih, Cmd.words, List.map_cons, List.mem_append,
      List.mem_singleton, List.mem_cons, or_assoc]

theorem words_backs (n : Nat) (c : Cmd Span) : (backs n c).words = c.words := by
  induction n generalizing c with
  | zero => rfl
  | succ n ih => exact ih _

theorem Redirs.mem_files {rs : List (Redirection Span)} (h : Redirs ts rs)
    (hw : w ∈ rs.map Redirection.file) : .word w ∈ ts := by
  induction h with
  | nil => cases hw
  | cons hr _ ih =>
    rcases List.mem_cons.1 hw with heq | hw
    · cases hr <;> exact heq ▸ List.mem_cons_of_mem _ List.mem_cons_self
    · exact List.mem_cons_of_mem _ (List.mem_cons_of_mem _ (ih hw))

theorem Args.mem_words {ws : List Span} {rs : List (Redirection Span)} (h : Args ts ws rs)
    (hw : w ∈ ws ∨ w ∈ rs.map Redirection.file) : .word w ∈ ts := by
  induction h with
  | nil => exact hw.elim (fun h => by cases h) fun h => by cases h
  | cons hrs _ ih =>
    rw [List.map_append, List.mem_append, List.mem_cons] at hw
    rcases hw with (rfl | hw) | (hw | hw)
    · exact List.mem_cons_self
    · exact List.mem_cons_of_mem _ (List.mem_append_right _ (ih (.inl hw)))
    · exact List.mem_cons_of_mem _ (List.mem_append_left _ (hrs.mem_files hw))
    · exact List.mem_cons_of_mem _ (List.mem_append_right _ (ih (.inr hw)))

theorem Derives.mem_words {a : Nonterminal} (h : Derives a ts cmd) (hw : w ∈ cmd.words) :
    .word w ∈ ts := by
  induction h with
  | line n _ ih =>
    rw [words_backs] at hw
    exact List.mem_append_left _ (ih hw)
  | seq n _ _ ih ih' =>
    rw [Cmd.words, words_backs] at hw
    rcases List.mem_append.1 hw with hw | hw
    · exact List.mem_append_left _ (List.mem_append_left _ (ih hw))
    · exact List.mem_append_right _ (List.mem_cons_of_mem _ (ih' hw))
  | pipe _ ih => exact ih hw
  | bar _ _ ih ih' =>
    rcases List.mem_append.1 hw with hw | hw
    · exact List.mem_append_left _ (ih hw)
    · exact List.mem_append_right _ (List.mem_cons_of_mem _ (ih' hw))
  | block _ hrs ih =>
    rcases mem_words_wrap.1 hw with hw | hw
    · exact List.mem_cons_of_mem _ (List.mem_append_left _ (ih hw))
    · exact List.mem_cons_of_mem _ (List.mem_append_right _
        (List.mem_cons_of_mem _ (hrs.mem_files hw)))
  | words hrs ha _ =>
    rw [mem_words_wrap, List.map_append, List.mem_append] at hw
    rcases hw with hw | hw | hw
    · exact List.mem_append_right _ (ha.mem_words (.inl hw))
    · exact List.mem_append_left _ (hrs.mem_files hw)
    · exact List.mem_append_right _ (ha.mem_words (.inr hw))

/-- The NULs of `nulterminate` are at no byte of a word. -/
theorem cstr_eq_text (hline : 0 ∉ line) (hall : ∀ v ∈ cmd.words, IsWord line v)
    (hw : w ∈ cmd.words) :
    cstr (nulterminate cmd (charAt line)) (line.length + 1) w.q = text line w := by
  have hword := hall w hw
  have hkeep : ∀ i, w.q ≤ i → i < w.eq → nulterminate cmd (charAt line) i = charAt line i := by
    intro i h1 h2
    rw [nulterminate_apply, if_neg fun hmem => ?_]
    obtain ⟨v, hv, rfl⟩ := List.mem_map.1 hmem
    rcases (hall v hv).stop with heq | hstop
    · have := hword.bound
      omega
    · rw [hword.all _ h1 h2] at hstop
      cases hstop
  have hend : nulterminate cmd (charAt line) w.eq = 0 := by
    rw [nulterminate_apply, if_pos (List.mem_map_of_mem hw)]
  -- the bytes from any place inside the word on
  have hread : ∀ k j, w.q ≤ j → j ≤ w.eq → w.eq < j + k →
      cstr (nulterminate cmd (charAt line)) k j = text line ⟨j, w.eq⟩ := by
    intro k
    induction k with
    | zero => intro j _ h2 h3; omega
    | succ k ih =>
      intro j h1 h2 h3
      rw [cstr]
      rcases Nat.eq_or_lt_of_le h2 with rfl | hlt
      · rw [if_pos hend, text, Nat.sub_self, List.take_zero]
      · have hj : j < line.length := Nat.lt_of_lt_of_le hlt hword.bound
        have hne : charAt line j ≠ 0 := fun hzero =>
          absurd ((charAt_eq_zero_iff hline).1 hzero) (Nat.not_le.2 hj)
        rw [hkeep j h1 hlt, if_neg hne, ih (j + 1) (by omega) hlt (by omega), text, text]
        dsimp only
        rw [drop_eq_cons hj]
        obtain ⟨d, hd⟩ : ∃ d, w.eq - j = d + 1 := ⟨w.eq - j - 1, by omega⟩
        rw [hd, List.take_succ_cons, show w.eq - (j + 1) = d by omega]
  have := hword.bound
  exact hread _ _ (Nat.le_refl _) hword.le (by omega)

theorem Cmd.map_congr {V : Type} {f g : Span → V} (h : ∀ w ∈ cmd.words, f w = g w) :
    cmd.map f = cmd.map g := by
  induction cmd with
  | exec argv => exact congrArg Cmd.exec (List.map_congr_left h)
  | redir cmd file mode fd ih =>
    rw [Cmd.map, Cmd.map, ih fun w hw => h w (List.mem_append_left _ hw),
      h file (List.mem_append_right _ (List.mem_singleton.2 rfl))]
  | pipe left right ihl ihr =>
    rw [Cmd.map, Cmd.map, ihl fun w hw => h w (List.mem_append_left _ hw),
      ihr fun w hw => h w (List.mem_append_right _ hw)]
  | list left right ihl ihr =>
    rw [Cmd.map, Cmd.map, ihl fun w hw => h w (List.mem_append_left _ hw),
      ihr fun w hw => h w (List.mem_append_right _ hw)]
  | back cmd ih => exact congrArg Cmd.back (ih h)

/-- `parsecmd` by the result of `parseline`. -/
theorem parsecmd_cases (hline : 0 ∉ line) (h : At line 0 ts) :
    (∃ e, parsecmd line = .error e ∧ e ≠ .spin ∧ ∀ c, ¬ Derives .line ts c) ∨
    ∃ c, parsecmd line = .ok (c, nulterminate c (charAt line)) ∧ Derives .line ts c ∧
      ∀ c', Derives .line ts c' → c' = c := by
  have hlen := h.length_le hline
  have hfuel : turns ts.length .line ≤ 4 * line.length + 4 := by
    rw [turns]
    omega
  have hsound := parser_sound hline .line h hfuel
  -- a derivation of all tokens is what the parser returns
  have hcomplete : ∀ c', Derives .line ts c' →
      wp (parseline line (4 * line.length + 4)) 0 (fun c s' => c = c' ∧ At line s' []) Never := by
    intro c' hd
    rw [← List.append_nil ts] at h
    exact hd.parsed hline h (.inl rfl) hfuel
  cases hrun : parseline line (4 * line.length + 4) 0 with
  | error e =>
    left
    have hreport : Reported e := wp_error hsound hrun
    have hnever : ∀ c, Derives .line ts c → Never e := fun c hd => wp_error (hcomplete c hd) hrun
    refine ⟨e, ?_, hreport, hnever⟩
    simp only [parsecmd, bind, StateT.bind, Except.bind, hrun]
  | ok r =>
    obtain ⟨c, s⟩ := r
    obtain ⟨ts₁, ts2, hts, hat, hd⟩ := (wp_of_ok hrun).1 hsound
    have hparse : parsecmd line = if skip line isWhite s ≠ line.length then
        throw (.panic "syntax") else pure (c, nulterminate c (charAt line)) := by
      simp only [parsecmd, bind, StateT.bind, Except.bind, hrun]
      rfl
    have honly : ∀ c', Derives .line ts c' → c = c' ∧ At line s [] := fun c' hd' =>
      (wp_of_ok hrun).1 (hcomplete c' hd')
    by_cases hend : skip line isWhite s = line.length
    · right
      rw [(hat.nil_iff hline).1 hend, List.append_nil] at hts
      rw [hparse, if_neg (not_not_intro hend), hts]
      rw [hts] at honly
      exact ⟨c, rfl, hd, fun c' hd' => (honly c' hd').1.symm⟩
    · left
      rw [hparse, if_pos hend]
      refine ⟨_, rfl, (fun heq => by cases heq), fun c' hd' => hend ?_⟩
      exact (hat.nil_iff hline).2 (hat.unique (honly c' hd').2)

/-- The parser is exact: it ends; it accepts the lines of the grammar; and the tree it
    returns, with the strings that C reads in the buffer after `nulterminate`, is the parse tree
    of the line. -/
theorem parsecmd_exact (hline : 0 ∉ line) :
    parsecmd line ≠ .error .spin ∧
    ((∃ r, parsecmd line = .ok r) ↔ ∃ us c, Spells line us ∧ Derives .line us c) ∧
    ∀ cmd m, parsecmd line = .ok (cmd, m) → ∃ us, Spells line us ∧
      Derives .line us (cmd.map fun w => cstr m (line.length + 1) w.q) ∧
      ∀ us' c, Spells line us' → Derives .line us' c →
        c = cmd.map fun w => cstr m (line.length + 1) w.q := by
  obtain ⟨ts, hat⟩ := exists_at hline (Nat.zero_le line.length)
  have hspells : Spells line (ts.map (Tok.map (text line))) := hat.spells hline
  rcases parsecmd_cases hline hat with ⟨e, hrun, hne, hnone⟩ | ⟨c, hrun, hd, honly⟩
  · refine ⟨?_, ?_, fun cmd m hok => ?_⟩
    · rw [hrun]
      exact fun heq => hne (Except.error.inj heq)
    · refine ⟨fun ⟨r, hr⟩ => ?_, fun ⟨us, c, hus, hd⟩ => ?_⟩
      · rw [hrun] at hr
        cases hr
      · obtain rfl := hus.unique hspells
        obtain ⟨c', hd', -⟩ := hd.lift
        exact absurd hd' (hnone c')
    · rw [hrun] at hok
      cases hok
  · have hwords : ∀ w ∈ c.words, IsWord line w := fun w hw => hat.isWord hline (hd.mem_words hw)
    have htree : (c.map fun w => cstr (nulterminate c (charAt line)) (line.length + 1) w.q) =
        c.map (text line) := Cmd.map_congr fun w hw => cstr_eq_text hline hwords hw
    refine ⟨?_, ?_, fun cmd m hok => ?_⟩
    · rw [hrun]
      exact fun heq => by cases heq
    · exact ⟨fun _ => ⟨_, _, hspells, hd.map (text line)⟩, fun _ => ⟨_, hrun⟩⟩
    · rw [hrun] at hok
      cases hok
      rw [htree]
      refine ⟨_, hspells, hd.map (text line), fun us' c' hus' hd' => ?_⟩
      obtain rfl := hus'.unique hspells
      obtain ⟨d, hd'', rfl⟩ := hd'.lift
      rw [honly d hd'']

/-- A line of one word. -/
theorem parsecmd_exact_word : ∃ r, parsecmd [97] = .ok r := by
  have hzero : (0 : Byte) ∉ [97] := by decide
  refine (parsecmd_exact hzero).2.1.2 ⟨[.word [97]], .exec [[97]], ?_, ?_⟩
  · have hproper : (Tok.word [97]).Proper := ⟨by decide, by decide⟩
    have hends : (Tok.word [97]).Ends [] := fun c hc => by cases hc
    exact .cons (List.forall_mem_nil _) hproper hends (.nil (List.forall_mem_nil _))
  · exact .line 0 (.pipe (.words .nil (.cons .nil .nil) (by decide)))

end Strings

end CowPaging.Shell
