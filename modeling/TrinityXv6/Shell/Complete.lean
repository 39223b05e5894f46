import Mathlib.Data.List.GetD
import TrinityXv6.Shell.Grammar

/-!
# The shell accepts its grammar

Completeness of the parser, and both directions for a whole line. The grammar can be read with one
token of lookahead: what may follow a nonterminal never starts one of its own continuations
(`Nonterminal.follow`), so that the parser, which always goes on when it can, stops where the
derivation does.

A tree that `parsecmd` returns points into the line after `nulterminate` has written to it. The NULs
are put where no word has a character, so the strings of the tree are still its words.

## Main definitions

* `Nonterminal.follow` — what may follow a nonterminal

## Main results

* `Line.parse_complete` — what is derivable is accepted
* `deref_nulterminate` — what `nulterminate` writes
* `parsecmd_grammar` — the parser accepts exactly its grammar
-/

namespace TrinityXv6

namespace Shell

open Command
open List

namespace Line

variable {L : Line} {s s' fuel : ℕ} {c : Cmd Span}

/-! ## Completeness -/

/-- A parser returns, having read all tokens up to `rest`, a tree with the words of `d`. -/
def Returns (L : Line) (r : Except Stop (Cmd Span × ℕ)) (rest : List Token) (d : Cmd Word) : Prop :=
  ∃ c s', r = .ok (c, s') ∧ s' ≤ L.es ∧ L.toks s' = rest ∧ L.words c = d

variable {rest ts : List Token} {d : Cmd Word}

theorem parseredirs_stop (hs : s ≤ L.es) (h : headIn [chr '<', chr '>'] (L.toks s) = false) :
    L.parseredirs (fuel + 1) c s = .ok (c, L.skip s) := by
  rw [parseredirs, peek_bind hs (by decide), h]
  rfl

theorem parseredirs_step (r : Redir) (hs : s ≤ L.es) (hts : L.toks s = r.tokens ++ ts) :
    ∃ c' s', L.parseredirs (fuel + 1) c s = L.parseredirs fuel c' s' ∧ s' ≤ L.es ∧
      L.toks s' = ts ∧ L.words c' = r.around (L.words c) := by
  have hhead : headIn [chr '<', chr '>'] (L.toks s) = true := by
    rw [hts]
    show headIn _ (.sym r.op.symbol :: _) = true
    cases r.op <;> rfl
  obtain ⟨_, s₁, hg, hs₁, ht₁, -⟩ := gettoken_cons (skip_le hs) ((toks_skip hs).trans hts)
  obtain ⟨w, s₂, hg₂, hs₂, ht₂, hword⟩ := gettoken_cons hs₁ ht₁
  refine ⟨redircmd (.sym r.op.symbol) c w, s₂, ?_, hs₂, ht₂, ?_⟩
  · rw [parseredirs, peek_bind hs (by decide), hhead, if_pos rfl, bind_of_ok hg, bind_of_ok hg₂,
      if_neg (fun h => h rfl)]
    rfl
  · rw [words, Cmd.map_redircmd, redircmd_symbol, (hword _ rfl).2]
    rfl

theorem parseredirs_complete (rs : List Redir) (hs : s ≤ L.es)
    (hts : L.toks s = rs.flatMap Redir.tokens ++ rest)
    (hrest : headIn [chr '<', chr '>'] rest = false) (hfuel : (L.toks s).length < fuel) :
    L.Returns (L.parseredirs fuel c s) rest (rs.foldl Redir.around (L.words c)) := by
  induction rs generalizing s c fuel with
  | nil =>
    obtain ⟨fuel, rfl⟩ := Nat.exists_eq_add_one.mpr (Nat.zero_lt_of_lt hfuel)
    have hts' : L.toks s = rest := hts
    rw [parseredirs_stop hs (hts' ▸ hrest)]
    exact ⟨c, _, rfl, skip_le hs, (toks_skip hs).trans hts', rfl⟩
  | cons r rs ih =>
    obtain ⟨fuel, rfl⟩ := Nat.exists_eq_add_one.mpr (Nat.zero_lt_of_lt hfuel)
    rw [flatMap_cons, append_assoc] at hts
    obtain ⟨c', s', hrun, hs', hts', hc'⟩ := parseredirs_step r hs hts
    have hlen : (L.toks s).length = (L.toks s').length + 2 := by rw [hts, hts']; rfl
    rw [hrun, foldl_cons, ← hc']
    exact ih hs' hts' (by omega)

theorem parsebacks_complete (n : ℕ) (hs : s ≤ L.es)
    (hts : L.toks s = List.replicate n (.sym .amp) ++ rest) (hrest : headIn [chr '&'] rest = false)
    (hfuel : (L.toks s).length < fuel) :
    L.Returns (L.parsebacks fuel c s) rest (Cmd.back^[n] (L.words c)) := by
  induction n generalizing s c fuel with
  | zero =>
    obtain ⟨fuel, rfl⟩ := Nat.exists_eq_add_one.mpr (Nat.zero_lt_of_lt hfuel)
    have hts' : L.toks s = rest := hts
    rw [parsebacks, peek_bind hs (by decide), hts', hrest]
    exact ⟨c, _, rfl, skip_le hs, (toks_skip hs).trans hts', rfl⟩
  | succ n ih =>
    obtain ⟨fuel, rfl⟩ := Nat.exists_eq_add_one.mpr (Nat.zero_lt_of_lt hfuel)
    have hts' : L.toks s = .sym .amp :: (List.replicate n (.sym .amp) ++ rest) := hts
    obtain ⟨_, s₁, hg, hs₁, ht₁, -⟩ := gettoken_cons (skip_le hs) ((toks_skip hs).trans hts')
    have hlen : (L.toks s).length = (L.toks s₁).length + 1 := by rw [hts', ht₁]; rfl
    rw [parsebacks, peek_bind hs (by decide), hts']
    show L.Returns ((L.gettoken >>= fun _ => L.parsebacks fuel (.back c)) (L.skip s)) _ _
    rw [bind_of_ok hg]
    exact ih hs₁ ht₁ (by omega)

end Line

/-- What may follow a nonterminal. -/
def Nonterminal.follow : Nonterminal → List Symbol
  | .exec => [.bar, .rpar, .amp, .semi]
  | .pipe => [.rpar, .amp, .semi]
  | .line => [.rpar]

/-- What is left is nothing, or starts with what may follow. -/
def Nonterminal.Follows (nt : Nonterminal) (rest : List Token) : Prop :=
  rest = [] ∨ ∃ k ∈ nt.follow, ∃ us, rest = .sym k :: us

variable {rest : List Token} {buf line : List UInt8} {s fuel : ℕ} {L : Line} {nt : Nonterminal}

theorem Nonterminal.Follows.headIn_eq_false (h : nt.Follows rest)
    {cs : List UInt8} (hcs : ∀ k ∈ nt.follow, k.char ∉ cs) : Line.headIn cs rest = false := by
  rcases h with rfl | ⟨k, hk, us, rfl⟩
  · rfl
  · exact decide_eq_false (hcs k hk)

theorem Nonterminal.Follows.mono {nt nt' : Nonterminal} (h : nt.Follows rest)
    (hsub : nt.follow ⊆ nt'.follow) : nt'.Follows rest := by
  rcases h with rfl | ⟨k, hk, hrest⟩
  · exact .inl rfl
  · exact .inr ⟨k, hsub hk, hrest⟩

theorem Nonterminal.Follows.amps (h : Nonterminal.pipe.Follows rest) (n : ℕ) :
    Nonterminal.pipe.Follows (List.replicate n (.sym .amp) ++ rest) := by
  cases n with
  | zero => exact h
  | succ n => exact .inr ⟨.amp, by decide, _, rfl⟩

namespace Line

variable {L : Line} {s s' fuel : ℕ} {c : Cmd Span} {rest ts : List Token} {d : Cmd Word}

/-- The items of a simple command, from a place where redirections may stand. -/
theorem parseargs_complete {argc n : ℕ} (items : List Item) (hs : s ≤ L.es)
    (hts : L.toks s = items.flatMap Item.tokens ++ rest) (hrest : Nonterminal.exec.Follows rest)
    (hargc : argc + (items.filterMap Item.word?).length < maxargs)
    (hfuel : (L.toks s).length < fuel) (hn : (L.toks s).length < n) :
    L.Returns ((L.parseredirs fuel c >>= L.parseargs n argc) s) rest
      (items.foldl Item.apply (L.words c)) := by
  induction items generalizing s c fuel n argc with
  | nil =>
    obtain ⟨fuel, rfl⟩ := Nat.exists_eq_add_one.mpr (Nat.zero_lt_of_lt hfuel)
    obtain ⟨n, rfl⟩ := Nat.exists_eq_add_one.mpr (Nat.zero_lt_of_lt hn)
    have hts' : L.toks s = rest := hts
    have hskip := (toks_skip hs).trans hts'
    have hhead : headIn [chr '<', chr '>'] (L.toks s) = false :=
      hts' ▸ hrest.headIn_eq_false (by decide)
    rw [bind_of_ok (parseredirs_stop hs hhead), parseargs, peek_bind (skip_le hs) (by decide),
      hskip]
    rcases hrest with rfl | ⟨k, hk, us, rfl⟩
    · obtain ⟨_, s₁, hg, hs₁, ht₁⟩ := gettoken_nil (skip_le (skip_le hs))
        ((toks_skip (skip_le hs)).trans hskip)
      show L.Returns ((L.gettoken >>= _) _) _ _
      rw [bind_of_ok hg]
      exact ⟨c, s₁, rfl, hs₁, ht₁, rfl⟩
    · have hstop : ∀ k ∈ Nonterminal.exec.follow,
          k.char ∈ [chr '|', chr ')', chr '&', chr ';'] := by decide
      rw [show headIn _ (.sym k :: us) = true from decide_eq_true (hstop k hk)]
      exact ⟨c, _, rfl, skip_le (skip_le hs), (toks_skip (skip_le hs)).trans hskip, rfl⟩
  | cons item items ih =>
    obtain ⟨fuel, rfl⟩ := Nat.exists_eq_add_one.mpr (Nat.zero_lt_of_lt hfuel)
    rw [flatMap_cons, append_assoc] at hts
    cases item with
    | redir r =>
      obtain ⟨c', s', hrun, hs', hts', hc'⟩ := parseredirs_step r hs hts
      have hlen : (L.toks s).length = (L.toks s').length + 2 := by rw [hts, hts']; rfl
      rw [bind_of_eq hrun, foldl_cons]
      show L.Returns _ _ (items.foldl Item.apply (r.around (L.words c)))
      rw [← hc']
      exact ih hs' hts' hargc (by omega) (by omega)
    | word x =>
      obtain ⟨n, rfl⟩ := Nat.exists_eq_add_one.mpr (Nat.zero_lt_of_lt hn)
      have hskip := (toks_skip hs).trans hts
      have hhead : headIn [chr '<', chr '>'] (L.toks s) = false := by rw [hts]; rfl
      obtain ⟨w, s₁, hg, hs₁, ht₁, hword⟩ := gettoken_cons (skip_le (skip_le hs))
        ((toks_skip (skip_le hs)).trans hskip)
      have hlen : (L.toks s).length = (L.toks s₁).length + 1 := by rw [hts, ht₁]; rfl
      have hargc' : argc + 1 + (items.filterMap Item.word?).length < maxargs := by
        have : argc + ((items.filterMap Item.word?).length + 1) < maxargs := hargc
        omega
      rw [bind_of_ok (parseredirs_stop hs hhead), parseargs, peek_bind (skip_le hs) (by decide),
        hskip]
      show L.Returns ((L.gettoken >>= _) _) _ _
      rw [bind_of_ok hg, if_neg (fun h => by cases h), if_neg (fun h => h rfl),
        if_neg (by omega)]
      have hnext : L.Returns ((L.parseredirs n (c.addArg w) >>= L.parseargs n (argc + 1)) s₁) rest
          (items.foldl Item.apply (L.words (c.addArg w))) :=
        ih hs₁ ht₁ hargc' (by omega) (by omega)
      rwa [words, Cmd.map_addArg, (hword x rfl).2] at hnext

/-- The function that parses a nonterminal. -/
def parse (L : Line) : Nonterminal → ℕ → Parser (Cmd Span)
  | .line => L.parseline
  | .pipe => L.parsepipe
  | .exec => L.parseexec

/-- How far a nonterminal is from the call that takes the next token. -/
def rank : Nonterminal → ℕ
  | .line => 4
  | .pipe => 3
  | .exec => 2

theorem headIn_items (items : List Item) (hrest : Nonterminal.exec.Follows rest) :
    headIn [chr '('] (items.flatMap Item.tokens ++ rest) = false := by
  cases items with
  | nil => exact hrest.headIn_eq_false (by decide)
  | cons item items =>
    cases item with
    | word w => rfl
    | redir r =>
      show decide (r.op.symbol.char ∈ [chr '(']) = false
      cases r.op <;> rfl

theorem parseblock_complete {rs : List Redir} (hs : s ≤ L.es)
    (hts : L.toks s = .sym .lpar :: (ts ++ .sym .rpar :: (rs.flatMap Redir.tokens ++ rest)))
    (hrest : headIn [chr '<', chr '>'] rest = false) (hfuel : (L.toks s).length ≤ fuel)
    (hline : ∀ s', s' ≤ L.es → L.toks s' = ts ++ .sym .rpar :: (rs.flatMap Redir.tokens ++ rest) →
      L.Returns (L.parseline fuel s') (.sym .rpar :: (rs.flatMap Redir.tokens ++ rest)) d) :
    L.Returns (L.parseblock (fuel + 1) s) rest (rs.foldl Redir.around d) := by
  obtain ⟨_, s₁, hg, hs₁, ht₁, -⟩ := gettoken_cons (skip_le hs) ((toks_skip hs).trans hts)
  obtain ⟨c₂, s₂, hrun, hs₂, ht₂, rfl⟩ := hline s₁ hs₁ ht₁
  obtain ⟨_, s₃, hg₃, hs₃, ht₃, -⟩ := gettoken_cons (skip_le hs₂) ((toks_skip hs₂).trans ht₂)
  have hlen : (L.toks s₃).length < fuel := by
    rw [hts] at hfuel
    rw [ht₃]
    simp only [length_cons, length_append] at hfuel ⊢
    omega
  rw [parseblock, peek_bind hs (by decide), hts, show headIn [chr '('] (.sym .lpar :: _) = true
    from rfl, if_pos rfl, bind_of_ok hg, bind_of_ok hrun, peek_bind hs₂ (by decide), ht₂,
    show headIn [chr ')'] (.sym .rpar :: _) = true from rfl, if_pos rfl, bind_of_ok hg₃]
  exact parseredirs_complete rs hs₃ ht₃ hrest hlen

/-- **What is derivable is accepted**, with the tree of the derivation. -/
theorem parse_complete (h : Derives nt ts d) (hs : s ≤ L.es)
    (hts : L.toks s = ts ++ rest) (hrest : nt.Follows rest)
    (hfuel : 4 * (L.toks s).length + rank nt ≤ fuel) : L.Returns (L.parse nt fuel s) rest d := by
  induction h generalizing s rest fuel with
  | simple items h =>
    rw [rank] at hfuel
    obtain ⟨fuel, rfl⟩ := Nat.exists_eq_add_of_le' (show 1 ≤ fuel by omega)
    have hskip := toks_skip hs
    have hhead : headIn [chr '('] (L.toks s) = false := by
      rw [hts]
      exact headIn_items items hrest
    show L.Returns (L.parseexec (fuel + 1) s) _ _
    rw [parseexec, ← foldl_apply, peek_bind hs (by decide), hhead]
    exact parseargs_complete items (skip_le hs) (hskip.trans hts) hrest (by rwa [Nat.zero_add])
      (by rw [hskip]; omega) (by rw [hskip]; omega)
  | block rs h ih =>
    rw [rank] at hfuel
    obtain ⟨fuel, rfl⟩ := Nat.exists_eq_add_of_le' (show 2 ≤ fuel by omega)
    have hskip := toks_skip hs
    rw [append_assoc, cons_append, cons_append] at hts
    show L.Returns (L.parseexec (fuel + 1 + 1) s) _ _
    rw [parseexec, peek_bind hs (by decide), hts]
    refine parseblock_complete (skip_le hs) (hskip.trans hts)
      (hrest.headIn_eq_false (by decide)) (by rw [hskip]; omega) fun s' hs' hts' => ?_
    refine ih hs' hts' (.inr ⟨.rpar, by decide, _, rfl⟩) ?_
    have hlen : (L.toks s).length = (L.toks s').length + 1 := by rw [hts, hts']; rfl
    rw [rank]
    omega
  | single h ih =>
    rw [rank] at hfuel
    obtain ⟨fuel, rfl⟩ := Nat.exists_eq_add_of_le' (show 1 ≤ fuel by omega)
    have hexec : L.Returns (L.parseexec fuel s) rest _ :=
      ih hs hts (hrest.mono (by decide)) (by rw [rank]; omega)
    obtain ⟨c₁, s₁, hrun, hs₁, ht₁, hc₁⟩ := hexec
    show L.Returns (L.parsepipe (fuel + 1) s) _ _
    rw [parsepipe, bind_of_ok hrun, peek_bind hs₁ (by decide), ht₁,
      hrest.headIn_eq_false (by decide)]
    exact ⟨c₁, _, rfl, skip_le hs₁, (toks_skip hs₁).trans ht₁, hc₁⟩
  | pipe hl hr ihl ihr =>
    rw [rank] at hfuel
    obtain ⟨fuel, rfl⟩ := Nat.exists_eq_add_of_le' (show 1 ≤ fuel by omega)
    rw [append_assoc, cons_append] at hts
    have hexec : L.Returns (L.parseexec fuel s) _ _ :=
      ihl hs hts (.inr ⟨.bar, by decide, _, rfl⟩) (by rw [rank]; omega)
    obtain ⟨c₁, s₁, hrun, hs₁, ht₁, rfl⟩ := hexec
    obtain ⟨_, s₂, hg, hs₂, ht₂, -⟩ := gettoken_cons (skip_le hs₁) ((toks_skip hs₁).trans ht₁)
    have hlen : (L.toks s₂).length + 1 ≤ (L.toks s).length := by
      rw [hts, ht₂]
      simp
    have hpipe : L.Returns (L.parsepipe fuel s₂) rest _ := ihr hs₂ ht₂ hrest (by rw [rank]; omega)
    obtain ⟨c₃, s₃, hrun₃, hs₃, ht₃, rfl⟩ := hpipe
    show L.Returns (L.parsepipe (fuel + 1) s) _ _
    rw [parsepipe, bind_of_ok hrun, peek_bind hs₁ (by decide), ht₁,
      show headIn [chr '|'] (.sym .bar :: _) = true from rfl, if_pos rfl, bind_of_ok hg,
      bind_of_ok hrun₃]
    exact ⟨_, s₃, rfl, hs₃, ht₃, rfl⟩
  | line n h ih =>
    rw [rank] at hfuel
    obtain ⟨fuel, rfl⟩ := Nat.exists_eq_add_of_le' (show 1 ≤ fuel by omega)
    rw [append_assoc] at hts
    have hpipe : L.Returns (L.parsepipe fuel s) (List.replicate n (.sym .amp) ++ rest) _ :=
      ih hs hts (Nonterminal.Follows.amps (hrest.mono (by decide)) n) (by rw [rank]; omega)
    obtain ⟨c₁, s₁, hrun, hs₁, ht₁, rfl⟩ := hpipe
    have hlen : (L.toks s₁).length ≤ (L.toks s).length := by
      rw [hts, ht₁]
      exact (suffix_append ..).length_le
    obtain ⟨c₂, s₂, hrun₂, hs₂, ht₂, hc₂⟩ := parsebacks_complete n hs₁ ht₁
      (hrest.headIn_eq_false (by decide)) (show _ < fuel by omega)
    show L.Returns (L.parseline (fuel + 1) s) _ _
    rw [parseline, bind_of_ok hrun, bind_of_ok hrun₂, peek_bind hs₂ (by decide), ht₂,
      hrest.headIn_eq_false (by decide)]
    exact ⟨c₂, _, rfl, skip_le hs₂, (toks_skip hs₂).trans ht₂, hc₂⟩
  | list n hl hr ihl ihr =>
    rw [rank] at hfuel
    obtain ⟨fuel, rfl⟩ := Nat.exists_eq_add_of_le' (show 1 ≤ fuel by omega)
    rw [append_assoc, append_assoc, cons_append] at hts
    have hpipe : L.Returns (L.parsepipe fuel s) (List.replicate n (.sym .amp) ++ _) _ :=
      ihl hs hts (Nonterminal.Follows.amps (.inr ⟨.semi, by decide, _, rfl⟩) n)
        (by rw [rank]; omega)
    obtain ⟨c₁, s₁, hrun, hs₁, ht₁, rfl⟩ := hpipe
    have hlen : (L.toks s₁).length ≤ (L.toks s).length := by
      rw [hts, ht₁]
      exact (suffix_append ..).length_le
    obtain ⟨c₂, s₂, hrun₂, hs₂, ht₂, hc₂⟩ := parsebacks_complete n hs₁ ht₁ rfl
      (show _ < fuel by omega)
    obtain ⟨_, s₃, hg, hs₃, ht₃, -⟩ := gettoken_cons (skip_le hs₂) ((toks_skip hs₂).trans ht₂)
    have hlen₃ : (L.toks s₃).length + 1 ≤ (L.toks s).length := by
      rw [hts, ht₃]
      simp only [length_append, length_cons]
      omega
    have hline : L.Returns (L.parseline fuel s₃) rest _ := ihr hs₃ ht₃ hrest (by rw [rank]; omega)
    obtain ⟨c₄, s₄, hrun₄, hs₄, ht₄, rfl⟩ := hline
    show L.Returns (L.parseline (fuel + 1) s) _ _
    rw [parseline, bind_of_ok hrun, bind_of_ok hrun₂, peek_bind hs₂ (by decide), ht₂,
      show headIn [chr ';'] (.sym .semi :: _) = true from rfl, if_pos rfl, bind_of_ok hg,
      bind_of_ok hrun₄]
    exact ⟨_, s₄, rfl, hs₄, ht₄, congrArg (Cmd.list · _) hc₂⟩

end Line

/-! ## A whole line -/

theorem deref_set (buf : List UInt8) (i j : ℕ) :
    deref (buf.set j 0) i = if i = j then 0 else deref buf i := by
  rw [deref, deref, getD_eq_getElem?_getD, getD_eq_getElem?_getD, getElem?_set]
  by_cases hij : j = i
  · rw [if_pos hij, if_pos hij.symm]
    split <;> rfl
  · rw [if_neg hij, if_neg (Ne.symm hij)]

/-- The words of a tree, in the order in which `nulterminate` comes to them. -/
def Cmd.spans {ω : Type} : Cmd ω → List ω
  | exec argv => argv
  | redir cmd file _ _ => cmd.spans ++ [file]
  | pipe left right => left.spans ++ right.spans
  | list left right => left.spans ++ right.spans
  | back cmd => cmd.spans

theorem Cmd.All.of_mem {ω : Type} {p : ω → Prop} {c : Cmd ω} (h : c.All p) {w : ω}
    (hw : w ∈ c.spans) : p w := by
  induction c with
  | exec argv => exact h w hw
  | redir c file mode fd ih =>
    rcases mem_append.mp hw with hw | hw
    · exact ih h.1 hw
    · rw [mem_singleton.mp hw]
      exact h.2
  | pipe l r ihl ihr => exact (mem_append.mp hw).elim (ihl h.1) (ihr h.2)
  | list l r ihl ihr => exact (mem_append.mp hw).elim (ihl h.1) (ihr h.2)
  | back c ih => exact ih h hw

theorem Cmd.map_congr {ω ω' : Type} {f g : ω → ω'} {c : Cmd ω} (h : ∀ w ∈ c.spans, f w = g w) :
    c.map f = c.map g := by
  induction c with
  | exec argv => exact congrArg Cmd.exec (map_congr_left h)
  | redir c file mode fd ih =>
    rw [map, map, ih fun w hw => h w (mem_append_left _ hw),
      h file (mem_append_right _ (mem_singleton_self file))]
  | pipe l r ihl ihr =>
    rw [map, map, ihl fun w hw => h w (mem_append_left _ hw),
      ihr fun w hw => h w (mem_append_right _ hw)]
  | list l r ihl ihr =>
    rw [map, map, ihl fun w hw => h w (mem_append_left _ hw),
      ihr fun w hw => h w (mem_append_right _ hw)]
  | back c ih => rw [map, map, ih h]

theorem nulterminate_eq (c : Cmd Span) (buf : List UInt8) :
    nulterminate c buf = c.spans.foldl (fun buf w => buf.set w.eq 0) buf := by
  induction c generalizing buf with
  | exec argv => rfl
  | redir c file mode fd ih => rw [nulterminate, ih, Cmd.spans, foldl_append]; rfl
  | pipe l r ihl ihr => rw [nulterminate, ihl, ihr, Cmd.spans, foldl_append]
  | list l r ihl ihr => rw [nulterminate, ihl, ihr, Cmd.spans, foldl_append]
  | back c ih => exact ih buf

/-- **`nulterminate`** changes the characters after words, and no other ones. -/
theorem deref_nulterminate (c : Cmd Span) (buf : List UInt8) (i : ℕ) :
    deref (nulterminate c buf) i = if i ∈ c.spans.map Span.eq then 0 else deref buf i := by
  rw [nulterminate_eq]
  induction c.spans generalizing buf with
  | nil => rfl
  | cons w ws ih =>
    rw [foldl_cons, ih, deref_set, map_cons]
    by_cases hi : i = w.eq
    · rw [if_pos hi, if_pos (show i ∈ w.eq :: ws.map Span.eq from hi ▸ .head _)]
      split <;> rfl
    · have hmem : i ∈ w.eq :: ws.map Span.eq ↔ i ∈ ws.map Span.eq := by
        rw [mem_cons, or_iff_right hi]
      rw [if_neg hi]
      simp only [hmem]

theorem cstring_of_zero (h : deref buf s = 0) : cstring buf s = [] := by
  rw [cstring]
  by_cases hs : s < buf.length
  · have hx : buf[s] = 0 := (getD_eq_getElem _ _ hs).symm.trans h
    rw [drop_eq_getElem_cons hs, hx]
    rfl
  · rw [drop_eq_nil_of_le (not_lt.mp hs)]
    rfl

theorem cstring_of_ne_zero (h : deref buf s ≠ 0) :
    cstring buf s = deref buf s :: cstring buf (s + 1) := by
  have hs : s < buf.length := by
    by_contra hge
    exact h (getD_eq_default _ _ (not_lt.mp hge))
  have hx : deref buf s = buf[s] := getD_eq_getElem _ _ hs
  rw [cstring, drop_eq_getElem_cons hs, ← hx]
  exact takeWhile_cons_of_pos (decide_eq_true h)

/-- A word with a NUL after it is a string. -/
theorem cstring_eq_slice {q n : ℕ} (hne : ∀ i < n, deref buf (q + i) ≠ 0)
    (hz : deref buf (q + n) = 0) : cstring buf q = slice buf ⟨q, q + n⟩ := by
  show cstring buf q = (List.range (q + n - q)).map fun i => deref buf (q + i)
  rw [Nat.add_sub_cancel_left]
  induction n generalizing q with
  | zero => exact cstring_of_zero hz
  | succ n ih =>
    have hassoc : ∀ i, q + 1 + i = q + (i + 1) := fun i => by omega
    have hnext := ih (fun i hi => hassoc i ▸ hne (i + 1) (Nat.succ_lt_succ hi))
      (hassoc n ▸ hz)
    have hfirst : deref buf q ≠ 0 := hne 0 (Nat.succ_pos n)
    rw [cstring_of_ne_zero hfirst, hnext, range_succ_eq_map, map_cons,
      map_map]
    exact congrArg _ (map_congr_left fun i _ => congrArg _ (hassoc i))

/-- After `nulterminate` the strings of a tree are its words. -/
theorem cstring_nulterminate {c : Cmd Span} (hc : c.All L.WordAt) {w : Span}
    (hw : w ∈ c.spans) : cstring (nulterminate c L.buf) w.q = slice L.buf w := by
  have hat := hc.of_mem hw
  obtain ⟨n, hn⟩ := Nat.exists_eq_add_of_le hat.le
  have hin : ∀ i < n, L.Inside (w.q + i) := fun i hi =>
    hat.inside _ (Nat.le_add_right ..) (by omega)
  have hkeep : ∀ i < n, deref (nulterminate c L.buf) (w.q + i) = deref L.buf (w.q + i) := by
    intro i hi
    rw [deref_nulterminate, if_neg]
    intro hmem
    obtain ⟨v, hv, heq⟩ := mem_map.mp hmem
    exact (hc.of_mem hv).ends (heq ▸ hin i hi)
  have hend : deref (nulterminate c L.buf) (w.q + n) = 0 := by
    rw [deref_nulterminate, if_pos (hn ▸ mem_map_of_mem hw)]
  rw [cstring_eq_slice (fun i hi => hkeep i hi ▸ L.nonzero _ (hin i hi).1) hend, ← hn]
  refine map_congr_left fun i hi => hkeep i ?_
  have := mem_range.mp hi
  have heq : (⟨w.q, w.eq⟩ : Span).eq - (⟨w.q, w.eq⟩ : Span).q = w.eq - w.q := rfl
  omega

theorem read_nulterminate {c : Cmd Span} (hc : c.All L.WordAt) :
    c.read (nulterminate c L.buf) = L.words c :=
  Cmd.map_congr fun _ hw => cstring_nulterminate hc hw

theorem length_toks_le (L : Line) (s : ℕ) : (L.toks s).length ≤ L.es - s := by
  rw [Line.toks]
  induction L.es - s generalizing s with
  | zero => exact le_rfl
  | succ n ih =>
    rw [Line.tokensFrom]
    split
    · exact Nat.succ_le_succ (ih _)
    · exact Nat.succ_le_succ (ih _)
    · exact Nat.zero_le _

theorem skip_eq_es (hs : s ≤ L.es) : L.skip s = L.es ↔ L.toks s = [] := by
  constructor
  · intro h
    rw [← Line.toks_skip hs, h, Line.toks, Nat.sub_self, Line.tokensFrom]
  · intro h
    rcases Line.toks_cases hs with ⟨-, hz, -⟩ | ⟨k, s', ht, -⟩ | ⟨w, s', ht, -⟩
    · by_contra hne
      exact L.nonzero _ (lt_of_le_of_ne (Line.skip_le hs) hne) hz
    · rw [h] at ht
      cases ht
    · rw [h] at ht
      cases ht

/-- A run of `parsecmd`, from the run of `parseline`. -/
theorem parsecmd_of_ok {c : Cmd Span}
    (h : (Line.of line).parseline fuel 0 = .ok (c, s)) : parsecmd fuel line =
      if (Line.of line).skip s ≠ (Line.of line).es then
        .error (.leftovers (cstring line ((Line.of line).skip s)))
      else .ok (c, nulterminate c line) := by
  have hrun : (do
      let cmd ← (Line.of line).parseline fuel
      let _ ← (Line.of line).peek []
      pure cmd : Parser (Cmd Span)) 0 = .ok (c, (Line.of line).skip s) := by
    rw [bind_of_ok h]
    rfl
  rw [parsecmd, hrun]

theorem parsecmd_of_error {e : Stop}
    (h : (Line.of line).parseline fuel 0 = .error e) : parsecmd fuel line = .error e := by
  rw [parsecmd, bind_of_error h]

theorem fuel_toks (hfuel : 4 * line.length + 4 ≤ fuel) :
    4 * ((Line.of line).toks 0).length + 4 ≤ fuel := by
  have hes : (Line.of line).es ≤ line.length := (takeWhile_sublist _).length_le
  have := length_toks_le (Line.of line) 0
  omega

/-- What `parsecmd` returns is a tree that `parseline` has read, up to the end of the line. -/
theorem parsecmd_ok {line buf : List UInt8} (hfuel : 4 * line.length + 4 ≤ fuel)
    {cmd : Cmd Span} (h : parsecmd fuel line = .ok (cmd, buf)) : buf = nulterminate cmd line ∧
      cmd.All (Line.of line).WordAt ∧ Derives .line (tokens line) ((Line.of line).words cmd) := by
  cases hrun : (Line.of line).parseline fuel 0 with
  | error e =>
    rw [parsecmd_of_error hrun] at h
    cases h
  | ok r =>
    obtain ⟨c, s⟩ := r
    have hreads := (((Line.of line).parse_sound fuel).1 0 (Nat.zero_le _) (fuel_toks hfuel)).ok hrun
    rw [parsecmd_of_ok hrun] at h
    by_cases hes : (Line.of line).skip s = (Line.of line).es
    · rw [if_neg (not_not.mpr hes)] at h
      cases h
      obtain ⟨ts, hts, hder⟩ := hreads.read
      rw [(skip_eq_es hreads.le).mp hes, append_nil] at hts
      rw [tokens, hts]
      exact ⟨rfl, hreads.all, hder⟩
    · rw [if_pos hes] at h
      cases h

/-- **The parser accepts exactly its grammar.** On every line it returns a tree or panics; it
returns a tree if and only if the tokens of the line are derivable, and then the tree is the one of
the derivation, with its words in place. -/
theorem parsecmd_grammar (line : List UInt8) {fuel : ℕ} (hfuel : 4 * line.length + 4 ≤ fuel) :
    parsecmd fuel line ≠ .error .spent ∧
    ∀ tree, (∃ cmd buf, parsecmd fuel line = .ok (cmd, buf) ∧ cmd.read buf = tree) ↔
      Derives .line (tokens line) tree := by
  have hfuel' := fuel_toks hfuel
  have hsound := ((Line.of line).parse_sound fuel).1 0 (Nat.zero_le _) hfuel'
  refine ⟨?_, fun tree => ⟨?_, fun h => ?_⟩⟩
  · cases hrun : (Line.of line).parseline fuel 0 with
    | error e =>
      rw [parsecmd_of_error hrun]
      exact fun h => hsound.error hrun (Except.error.inj h)
    | ok r =>
      rw [parsecmd_of_ok hrun]
      split
      · exact fun h => by cases h
      · exact fun h => by cases h
  · rintro ⟨cmd, buf, hcmd, rfl⟩
    obtain ⟨rfl, hall, hder⟩ := parsecmd_ok hfuel hcmd
    have hread : cmd.read (nulterminate cmd line) = _ := read_nulterminate hall
    rwa [hread]
  · have hall : (Line.of line).toks 0 = tokens line ++ [] := (append_nil _).symm
    obtain ⟨c, s, hrun, hs, hts, rfl⟩ :=
      Line.parse_complete h (Nat.zero_le _) hall (.inl rfl) hfuel'
    have hrun' : (Line.of line).parseline fuel 0 = .ok (c, s) := hrun
    have hes : (Line.of line).skip s = (Line.of line).es := (skip_eq_es hs).mpr hts
    refine ⟨c, nulterminate c line, ?_, read_nulterminate (hsound.ok hrun').all⟩
    rw [parsecmd_of_ok hrun', if_neg (not_not.mpr hes)]

/-- `ls>f&` as a line. -/
def exampleLine : List UInt8 := [chr 'l', chr 's', chr '>', chr 'f', chr '&']

/-- A command in the background with its output in a file. -/
theorem parsecmd_grammar_background :
    tokens exampleLine = [.word [chr 'l', chr 's'], .sym .gt, .word [chr 'f'], .sym .amp] ∧
    Derives .line (tokens exampleLine) (.back (.redir (.exec [[chr 'l', chr 's']]) [chr 'f']
      (O_WRONLY ||| O_CREATE ||| O_TRUNC) 1)) := by
  have hfuel : 4 * exampleLine.length + 4 ≤ 24 := by decide
  refine ⟨by decide, ((parsecmd_grammar exampleLine hfuel).2 _).mp ?_⟩
  refine ⟨.back (.redir (.exec [⟨0, 2⟩]) ⟨3, 4⟩ (O_WRONLY ||| O_CREATE ||| O_TRUNC) 1),
    [chr 'l', chr 's', 0, chr 'f', 0], ?_, ?_⟩
  · decide
  · decide

/-- **Words are terminated in place.** Every word of the tree is a longest word of the line, and its
pointer points to the string of its characters after `nulterminate`. -/
theorem nulterminate_words (line : List UInt8) {fuel : ℕ} (hfuel : 4 * line.length + 4 ≤ fuel)
    {cmd : Cmd Span} {buf : List UInt8} (h : parsecmd fuel line = .ok (cmd, buf)) :
    ∀ w ∈ cmd.spans, (Line.of line).WordAt w ∧ cstring buf w.q = slice line w := by
  obtain ⟨rfl, hall, -⟩ := parsecmd_ok hfuel h
  exact fun w hw => ⟨hall.of_mem hw, cstring_nulterminate hall hw⟩

/-- The words of `ls>f&` end at its symbols. -/
theorem nulterminate_words_background : ∃ cmd buf, parsecmd 24 exampleLine = .ok (cmd, buf) ∧
    ∀ w ∈ cmd.spans, (Line.of exampleLine).WordAt w ∧ cstring buf w.q = slice exampleLine w := by
  have hfuel : 4 * exampleLine.length + 4 ≤ 24 := by decide
  exact ⟨_, _, rfl, nulterminate_words exampleLine hfuel rfl⟩

end Shell

end TrinityXv6
