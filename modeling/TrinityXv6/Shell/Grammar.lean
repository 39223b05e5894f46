import Mathlib.Data.List.Induction
import TrinityXv6.Shell.Token

/-!
# The grammar of the shell

```
line  ::= pipe {'&'} [';' line]
pipe  ::= exec ['|' pipe]
exec  ::= '(' line ')' {redir} | {word | redir}        with fewer than MAXARGS words
redir ::= ('<' | '>' | '>>') word
```

`Derives` is this grammar, together with the tree of each derivation. Here is one half of what it
has to do with the parser: a parser that returns has read a derivable list of tokens, and its tree
is the one of the derivation.
-/

namespace TrinityXv6

namespace Shell

open Command
open List

/-! ## The grammar -/

/-- The three redirections. -/
inductive RedirOp
  | lt | gt | append
deriving DecidableEq

structure Redir where
  op : RedirOp
  file : Word
deriving DecidableEq

def RedirOp.symbol : RedirOp → Symbol
  | .lt => .lt
  | .gt => .gt
  | .append => .append

namespace Redir

def tokens (r : Redir) : List Token := [.sym r.op.symbol, .word r.file]

/-- The redirection of a command. -/
def around (c : Cmd Word) : Redir → Cmd Word
  | ⟨.lt, file⟩ => .redir c file O_RDONLY 0
  | ⟨.gt, file⟩ => .redir c file (O_WRONLY ||| O_CREATE ||| O_TRUNC) 1
  | ⟨.append, file⟩ => .redir c file (O_WRONLY ||| O_CREATE) 1

end Redir

/-- A piece of a simple command. -/
inductive Item
  | word (w : Word)
  | redir (r : Redir)
deriving DecidableEq

namespace Item

def tokens : Item → List Token
  | word w => [.word w]
  | redir r => r.tokens

def word? : Item → Option Word
  | word w => some w
  | redir _ => none

def redir? : Item → Option Redir
  | word _ => none
  | redir r => some r

end Item

inductive Nonterminal
  | line | pipe | exec
deriving DecidableEq

/-- The tokens `ts` are derivable from a nonterminal, and `c` is the tree of the derivation. -/
inductive Derives : Nonterminal → (ts : List Token) → (c : Cmd Word) → Prop
  | simple (items : List Item) (h : (items.filterMap Item.word?).length < maxargs) :
    Derives .exec (items.flatMap Item.tokens)
      ((items.filterMap Item.redir?).foldl Redir.around (.exec (items.filterMap Item.word?)))
  | block {ts c} (rs : List Redir) (h : Derives .line ts c) :
    Derives .exec (.sym .lpar :: ts ++ .sym .rpar :: rs.flatMap Redir.tokens)
      (rs.foldl Redir.around c)
  | single {ts c} (h : Derives .exec ts c) : Derives .pipe ts c
  | pipe {ts us c d} (hl : Derives .exec ts c) (hr : Derives .pipe us d) :
    Derives .pipe (ts ++ .sym .bar :: us) (.pipe c d)
  | line {ts c} (n : ℕ) (h : Derives .pipe ts c) :
    Derives .line (ts ++ List.replicate n (.sym .amp)) (Cmd.back^[n] c)
  | list {ts us c d} (n : ℕ) (hl : Derives .pipe ts c) (hr : Derives .line us d) :
    Derives .line (ts ++ List.replicate n (.sym .amp) ++ .sym .semi :: us)
      (.list (Cmd.back^[n] c) d)

/-- The tokens of a line. -/
def tokens (buf : List UInt8) : List Token := (Line.of buf).toks 0

/-! ### Trees -/

/-- What an item does to the tree of the items before it. -/
def Item.apply (c : Cmd Word) : Item → Cmd Word
  | word w => c.addArg w
  | redir r => r.around c

theorem addArg_foldl_around (rs : List Redir) (ws : List Word) (w : Word) :
    (rs.foldl Redir.around (.exec ws)).addArg w = rs.foldl Redir.around (.exec (ws ++ [w])) := by
  induction rs using reverseRecOn with
  | nil => rfl
  | append_singleton rs r ih =>
    rw [foldl_append, foldl_append]
    rw [← ih]
    obtain ⟨op, file⟩ := r
    cases op <;> rfl

/-- The order of words and redirections among each other does not matter. -/
theorem foldl_apply (items : List Item) : items.foldl Item.apply (.exec []) =
      (items.filterMap Item.redir?).foldl Redir.around (.exec (items.filterMap Item.word?)) := by
  induction items using reverseRecOn with
  | nil => rfl
  | append_singleton items item ih =>
    rw [foldl_append, ih, filterMap_append, filterMap_append]
    cases item with
    | word w =>
      show Cmd.addArg w _ = List.foldl Redir.around (.exec (_ ++ [w])) (_ ++ [])
      rw [addArg_foldl_around, append_nil]
    | redir r =>
      show r.around _ = List.foldl Redir.around (.exec (_ ++ [])) (_ ++ [r])
      rw [append_nil, foldl_append]
      rfl

namespace Cmd

variable {ω ω' : Type}

theorem map_addArg (f : ω → ω') (w : ω) (c : Cmd ω) :
    (c.addArg w).map f = (c.map f).addArg (f w) := by
  induction c with
  | exec argv => simp [addArg, map]
  | redir c file mode fd ih => simp only [addArg, map, ih]
  | pipe _ _ _ _ => rfl
  | list _ _ _ _ => rfl
  | back _ _ => rfl

theorem All.addArg {p : ω → Prop} {w : ω} (hw : p w) {c : Cmd ω} (h : c.All p) :
    (c.addArg w).All p := by
  induction c with
  | exec argv =>
    intro x hx
    rcases mem_append.mp hx with hx | hx
    · exact h x hx
    · rw [mem_singleton.mp hx]
      exact hw
  | redir c file mode fd ih => exact ⟨ih h.1, h.2⟩
  | pipe _ _ _ _ => exact h
  | list _ _ _ _ => exact h
  | back _ _ => exact h

theorem map_redircmd (f : ω → ω') (tok : Tok) (c : Cmd ω) (w : ω) :
    (redircmd tok c w).map f = redircmd tok (c.map f) (f w) := by
  unfold redircmd
  split <;> rfl

theorem All.redircmd {p : ω → Prop} {w : ω} (hw : p w) (tok : Tok) {c : Cmd ω} (h : c.All p) :
    (redircmd tok c w).All p := by
  unfold Shell.redircmd
  split
  · exact ⟨h, hw⟩
  · exact ⟨h, hw⟩
  · exact ⟨h, hw⟩
  · exact h

end Cmd

theorem redircmd_symbol (op : RedirOp) (c : Cmd Word) (file : Word) :
    redircmd (.sym op.symbol) c file = Redir.around c ⟨op, file⟩ := by
  cases op <;> rfl

/-! ### Lookahead -/

theorem Symbol.char_inj {k k' : Symbol} (h : k.char = k'.char) (hgt : k.char ≠ chr '>') :
    k = k' := by
  cases k <;> cases k' <;> first | rfl | exact absurd h (by decide) | exact absurd rfl hgt

namespace Line

variable {ts : List Token} {cs : List UInt8}

theorem headIn_eq_true : headIn cs ts = true ↔ ∃ k us, ts = .sym k :: us ∧ k.char ∈ cs := by
  constructor
  · intro h
    cases ts with
    | nil => cases h
    | cons t us =>
      cases t with
      | word w => cases h
      | sym k => exact ⟨k, us, rfl, of_decide_eq_true h⟩
  · rintro ⟨k, us, rfl, hk⟩
    exact decide_eq_true hk

theorem headIn_char {k : Symbol} (hgt : k.char ≠ chr '>') (h : headIn [k.char] ts = true) :
    ∃ us, ts = .sym k :: us := by
  obtain ⟨k', us, rfl, hk⟩ := headIn_eq_true.mp h
  exact ⟨us, by rw [Symbol.char_inj (mem_singleton.mp hk).symm hgt]⟩

theorem headIn_redir (h : headIn [chr '<', chr '>'] ts = true) :
    ∃ (op : RedirOp) (us : List Token), ts = .sym op.symbol :: us := by
  obtain ⟨k, us, rfl, hk⟩ := headIn_eq_true.mp h
  cases k with
  | lt => exact ⟨.lt, us, rfl⟩
  | gt => exact ⟨.gt, us, rfl⟩
  | append => exact ⟨.append, us, rfl⟩
  | _ => exact absurd hk (by decide)

/-! ## Soundness -/

variable {L : Line} {s s' fuel : ℕ} {c : Cmd Span}

/-- The tree with its words. -/
def words (L : Line) (c : Cmd Span) : Cmd Word := c.map (slice L.buf)

/-- A parser that went from `s` to `s'` and returned `c` has read tokens of which `P` holds. -/
structure Reads (L : Line) (s : ℕ) (P : List Token → Cmd Word → Prop) (c : Cmd Span) (s' : ℕ) :
    Prop where
  le : s' ≤ L.es
  all : c.All L.WordAt
  read : ∃ ts, L.toks s = ts ++ L.toks s' ∧ P ts (L.words c)

theorem Reads.of {P : List Token → Cmd Word → Prop} {d : Cmd Word} (hle : s' ≤ L.es)
    (hall : c.All L.WordAt) (hd : L.words c = d) (hp : P ts d) (hts : L.toks s = ts ++ L.toks s') :
    L.Reads s P c s' :=
  ⟨hle, hall, ts, hts, hd ▸ hp⟩

theorem peek_bind {β : Type} (hs : s ≤ L.es) (hcs : cs ⊆ symbols)
    (f : Bool → Parser β) : (L.peek cs >>= f) s = f (headIn cs (L.toks s)) (L.skip s) :=
  bind_of_ok (peek_eq hs hcs)

/-- Tokens of a list of redirections. -/
def Redirs (c : Cmd Word) (ts : List Token) (c' : Cmd Word) : Prop :=
  ∃ rs : List Redir, ts = rs.flatMap Redir.tokens ∧ c' = rs.foldl Redir.around c

theorem parseredirs_sound (hs : s ≤ L.es) (hfuel : (L.toks s).length < fuel) (hc : c.All L.WordAt) :
    Ends (L.parseredirs fuel c s) (L.Reads s (Redirs (L.words c))) (· ≠ .spent) := by
  induction fuel generalizing s c with
  | zero => exact absurd hfuel (Nat.not_lt_zero _)
  | succ fuel ih =>
    have hskip := toks_skip hs
    rw [parseredirs, peek_bind hs (by decide)]
    cases hb : headIn [chr '<', chr '>'] (L.toks s) with
    | false => exact ⟨skip_le hs, hc, [], by rw [hskip]; rfl, [], rfl, rfl⟩
    | true =>
      obtain ⟨op, ts, hts⟩ := headIn_redir hb
      rw [← hskip] at hts
      obtain ⟨_, s₁, hg, hs₁, ht₁, -⟩ := gettoken_cons (skip_le hs) hts
      rw [if_pos rfl, bind_of_ok hg]
      cases hts₁ : ts with
      | nil =>
        obtain ⟨_, s₂, hg₂, -⟩ := gettoken_nil hs₁ (ht₁.trans hts₁)
        rw [bind_of_ok hg₂]
        exact fun h => by cases h
      | cons t us =>
        obtain ⟨w, s₂, hg₂, hs₂, ht₂, hword⟩ := gettoken_cons hs₁ (ht₁.trans hts₁)
        rw [bind_of_ok hg₂]
        cases t with
        | sym k => exact fun h => by cases h
        | word x =>
          obtain ⟨hw, rfl⟩ := hword x rfl
          have hlen : (L.toks s).length = us.length + 2 := by rw [← hskip, hts, hts₁]; rfl
          refine (ih hs₂ (by rw [ht₂]; omega) (hc.redircmd hw _)).imp fun c' s' h => ?_
          obtain ⟨us', hus, rs, rfl, hrs⟩ := h.read
          refine ⟨h.le, h.all, _, ?_, ⟨op, slice L.buf w⟩ :: rs, rfl, ?_⟩
          · rw [← hskip, hts, hts₁, ← ht₂, hus]
            rfl
          · rw [hrs, words, Cmd.map_redircmd]
            show rs.foldl Redir.around (redircmd (.sym op.symbol) _ _) = _
            rw [redircmd_symbol]
            rfl

/-- Tokens of a list of items, of which fewer than `n` are words. -/
def Items (n : ℕ) (c : Cmd Word) (ts : List Token) (c' : Cmd Word) : Prop :=
  ∃ items : List Item, ts = items.flatMap Item.tokens ∧
    (items.filterMap Item.word?).length < n ∧ c' = items.foldl Item.apply c

/-- Redirections are items. -/
theorem Redirs.items {n : ℕ} {c d e : Cmd Word} {us : List Token} (h : Redirs c ts d)
    (h' : Items n d us e) : Items n c (ts ++ us) e := by
  obtain ⟨rs, rfl, rfl⟩ := h
  obtain ⟨items, rfl, hlen, rfl⟩ := h'
  refine ⟨rs.map .redir ++ items, ?_, ?_, ?_⟩
  · rw [flatMap_append, flatMap_map]
    rfl
  · rw [filterMap_append, filterMap_map]
    have hnone : rs.filterMap (Item.word? ∘ Item.redir) = [] := filterMap_eq_nil_iff.mpr
      fun _ _ => rfl
    rwa [hnone, nil_append]
  · rw [foldl_append, foldl_map]
    rfl

theorem parseargs_sound {argc : ℕ} (hs : s ≤ L.es) (hfuel : (L.toks s).length < fuel)
    (hargc : argc < maxargs) (hc : c.All L.WordAt) :
    Ends (L.parseargs fuel argc c s) (L.Reads s (Items (maxargs - argc) (L.words c)))
      (· ≠ .spent) := by
  induction fuel generalizing s c argc with
  | zero => exact absurd hfuel (Nat.not_lt_zero _)
  | succ fuel ih =>
    have hskip := toks_skip hs
    have hnone : ∀ {s'}, L.toks s' = L.toks s → s' ≤ L.es →
        L.Reads s (Items (maxargs - argc) (L.words c)) c s' := fun heq hle =>
      ⟨hle, hc, [], heq.symm, [], rfl, Nat.sub_pos_of_lt hargc, rfl⟩
    rw [parseargs, peek_bind hs (by decide)]
    cases hb : headIn [chr '|', chr ')', chr '&', chr ';'] (L.toks s) with
    | true => exact hnone hskip (skip_le hs)
    | false =>
      rw [if_neg Bool.false_ne_true]
      cases hts : L.toks s with
      | nil =>
        obtain ⟨_, s₁, hg, hs₁, ht₁⟩ := gettoken_nil (skip_le hs) (hskip.trans hts)
        rw [bind_of_ok hg, if_pos rfl]
        exact hnone (ht₁.trans hts.symm) hs₁
      | cons t ts =>
        obtain ⟨w, s₁, hg, hs₁, ht₁, hword⟩ := gettoken_cons (skip_le hs) (hskip.trans hts)
        rw [bind_of_ok hg]
        cases t with
        | sym k => exact fun h => by cases h
        | word x =>
          obtain ⟨hw, rfl⟩ := hword x rfl
          have hlen : (L.toks s).length = (L.toks s₁).length + 1 := by rw [hts, ht₁]; rfl
          rw [if_neg (fun h => by cases h), if_neg (fun h => h rfl)]
          by_cases hmany : maxargs ≤ argc + 1
          · rw [if_pos hmany]
            exact fun h => by cases h
          · rw [if_neg hmany]
            refine (parseredirs_sound hs₁ (by omega) (hc.addArg hw)).bind fun c₂ s₂ h₂ => ?_
            obtain ⟨us, hus, hr⟩ := h₂.read
            have hlen₂ : (L.toks s₁).length = us.length + (L.toks s₂).length := by
              rw [hus, length_append]
            refine (ih h₂.le (by omega) (not_le.mp hmany) h₂.all).imp fun c' s' h => ?_
            obtain ⟨vs, hvs, hi⟩ := h.read
            obtain ⟨items, hitems, hn, hc'⟩ := hr.items hi
            refine ⟨h.le, h.all, .word (slice L.buf w) :: (us ++ vs), ?_,
              .word (slice L.buf w) :: items, ?_, ?_, ?_⟩
            · rw [hts, ← ht₁, hus, hvs, cons_append, append_assoc]
            · rw [hitems]
              rfl
            · show (items.filterMap Item.word?).length + 1 < maxargs - argc
              omega
            · rw [hc', words, Cmd.map_addArg]
              rfl

theorem parsebacks_sound (hs : s ≤ L.es) (hfuel : (L.toks s).length < fuel) (hc : c.All L.WordAt) :
    Ends (L.parsebacks fuel c s) (L.Reads s fun ts c' => ∃ n,
      ts = List.replicate n (.sym .amp) ∧ c' = Cmd.back^[n] (L.words c)) (· ≠ .spent) := by
  induction fuel generalizing s c with
  | zero => exact absurd hfuel (Nat.not_lt_zero _)
  | succ fuel ih =>
    have hskip := toks_skip hs
    rw [parsebacks, peek_bind hs (by decide)]
    cases hb : headIn [chr '&'] (L.toks s) with
    | false => exact ⟨skip_le hs, hc, [], by rw [hskip]; rfl, 0, rfl, rfl⟩
    | true =>
      obtain ⟨ts, hts⟩ := headIn_char (k := .amp) (by decide) hb
      obtain ⟨_, s₁, hg, hs₁, ht₁, -⟩ := gettoken_cons (skip_le hs) (hskip.trans hts)
      have hlen : (L.toks s).length = (L.toks s₁).length + 1 := by rw [hts, ht₁]; rfl
      rw [if_pos rfl, bind_of_ok hg]
      refine (ih (c := .back c) hs₁ (by omega) hc).imp fun c' s' h => ?_
      obtain ⟨us, hus, n, rfl, hc'⟩ := h.read
      refine ⟨h.le, h.all, _, ?_, n + 1, rfl, hc'⟩
      rw [hts, ← ht₁, hus]
      rfl

/-- Given enough fuel, `p` reads what `nt` derives. -/
def Sound (L : Line) (nt : Nonterminal) (p : Parser (Cmd Span)) (fuel rank : ℕ) : Prop :=
  ∀ s, s ≤ L.es → 4 * (L.toks s).length + rank ≤ fuel →
    Ends (p s) (L.Reads s (Derives nt)) (· ≠ .spent)

theorem parseblock_sound (hline : Sound L .line (L.parseline fuel) fuel 4) :
    Sound L .exec (L.parseblock (fuel + 1)) (fuel + 1) 1 := by
  intro s hs hfuel
  have hskip := toks_skip hs
  rw [parseblock, peek_bind hs (by decide)]
  cases hb : headIn [chr '('] (L.toks s) with
  | false => exact fun h => by cases h
  | true =>
    obtain ⟨ts, hts⟩ := headIn_char (k := .lpar) (by decide) hb
    obtain ⟨_, s₁, hg, hs₁, ht₁, -⟩ := gettoken_cons (skip_le hs) (hskip.trans hts)
    have hlen : (L.toks s).length = (L.toks s₁).length + 1 := by rw [hts, ht₁]; rfl
    rw [if_pos rfl, bind_of_ok hg]
    refine (hline s₁ hs₁ (by omega)).bind fun c₂ s₂ h₂ => ?_
    obtain ⟨us, hus, hder⟩ := h₂.read
    have hlen₂ : (L.toks s₁).length = us.length + (L.toks s₂).length := by
      rw [hus, length_append]
    have hskip₂ := toks_skip h₂.le
    rw [peek_bind h₂.le (by decide)]
    cases hb₂ : headIn [chr ')'] (L.toks s₂) with
    | false => exact fun h => by cases h
    | true =>
      obtain ⟨vs, hvs⟩ := headIn_char (k := .rpar) (by decide) hb₂
      obtain ⟨_, s₃, hg₃, hs₃, ht₃, -⟩ := gettoken_cons (skip_le h₂.le) (hskip₂.trans hvs)
      have hlen₃ : (L.toks s₂).length = (L.toks s₃).length + 1 := by rw [hvs, ht₃]; rfl
      rw [if_pos rfl, bind_of_ok hg₃]
      refine (parseredirs_sound hs₃ (by omega) h₂.all).imp fun c' s' h => ?_
      obtain ⟨ws, hws, rs, rfl, hc'⟩ := h.read
      refine .of h.le h.all hc' (.block rs hder) ?_
      rw [hts, ← ht₁, hus, hvs, ← ht₃, hws]
      simp only [cons_append, append_assoc]

theorem parseexec_sound (hblock : Sound L .exec (L.parseblock fuel) fuel 1) :
    Sound L .exec (L.parseexec (fuel + 1)) (fuel + 1) 2 := by
  intro s hs hfuel
  have hskip := toks_skip hs
  rw [parseexec, peek_bind hs (by decide)]
  cases hb : headIn [chr '('] (L.toks s) with
  | true =>
    refine (hblock _ (skip_le hs) (by rw [hskip]; omega)).imp fun c' s' h => ?_
    obtain ⟨ts, hts, hder⟩ := h.read
    exact ⟨h.le, h.all, ts, hskip ▸ hts, hder⟩
  | false =>
    have hnil : (Cmd.exec [] : Cmd Span).All L.WordAt := fun _ h => absurd h not_mem_nil
    rw [if_neg Bool.false_ne_true]
    refine (parseredirs_sound (skip_le hs) (by rw [hskip]; omega) hnil).bind fun c₁ s₁ h₁ => ?_
    obtain ⟨ts, hts, hr⟩ := h₁.read
    have hlen : (L.toks s).length = ts.length + (L.toks s₁).length := by
      rw [← hskip, hts, length_append]
    refine (parseargs_sound h₁.le (by omega) (by decide) h₁.all).imp fun c' s' h => ?_
    obtain ⟨us, hus, hi⟩ := h.read
    obtain ⟨items, hitems, hn, hc'⟩ := hr.items hi
    refine .of h.le h.all (hc'.trans (foldl_apply items)) (.simple items hn) ?_
    rw [← hskip, hts, hus, ← hitems, append_assoc]

theorem parsepipe_sound (hexec : Sound L .exec (L.parseexec fuel) fuel 2)
    (hpipe : Sound L .pipe (L.parsepipe fuel) fuel 3) :
    Sound L .pipe (L.parsepipe (fuel + 1)) (fuel + 1) 3 := by
  intro s hs hfuel
  rw [parsepipe]
  refine (hexec s hs (by omega)).bind fun c₁ s₁ h₁ => ?_
  obtain ⟨ts, hts, hder⟩ := h₁.read
  have hlen : (L.toks s).length = ts.length + (L.toks s₁).length := by
    rw [hts, length_append]
  have hskip := toks_skip h₁.le
  rw [peek_bind h₁.le (by decide)]
  cases hb : headIn [chr '|'] (L.toks s₁) with
  | false => exact ⟨skip_le h₁.le, h₁.all, ts, hskip ▸ hts, .single hder⟩
  | true =>
    obtain ⟨us, hus⟩ := headIn_char (k := .bar) (by decide) hb
    obtain ⟨_, s₂, hg, hs₂, ht₂, -⟩ := gettoken_cons (skip_le h₁.le) (hskip.trans hus)
    have hlen₂ : (L.toks s₁).length = (L.toks s₂).length + 1 := by rw [hus, ht₂]; rfl
    rw [if_pos rfl, bind_of_ok hg]
    refine (hpipe s₂ hs₂ (by omega)).bind fun c₃ s₃ h₃ => ?_
    obtain ⟨vs, hvs, hder₃⟩ := h₃.read
    refine ⟨h₃.le, ⟨h₁.all, h₃.all⟩, _, ?_, .pipe hder hder₃⟩
    rw [hts, hus, ← ht₂, hvs, append_assoc, cons_append]

theorem parseline_sound (hpipe : Sound L .pipe (L.parsepipe fuel) fuel 3)
    (hline : Sound L .line (L.parseline fuel) fuel 4) :
    Sound L .line (L.parseline (fuel + 1)) (fuel + 1) 4 := by
  intro s hs hfuel
  rw [parseline]
  refine (hpipe s hs (by omega)).bind fun c₁ s₁ h₁ => ?_
  obtain ⟨ts, hts, hder⟩ := h₁.read
  have hlen : (L.toks s).length = ts.length + (L.toks s₁).length := by
    rw [hts, length_append]
  refine (parsebacks_sound h₁.le (by omega) h₁.all).bind fun c₂ s₂ h₂ => ?_
  obtain ⟨us, hus, n, rfl, hc₂⟩ := h₂.read
  have hlen₂ : (L.toks s₁).length = n + (L.toks s₂).length := by
    rw [hus, length_append, length_replicate]
  have hskip := toks_skip h₂.le
  rw [peek_bind h₂.le (by decide)]
  cases hb : headIn [chr ';'] (L.toks s₂) with
  | false =>
    refine .of (skip_le h₂.le) h₂.all hc₂ (.line n hder) ?_
    rw [hskip, hts, hus, append_assoc]
  | true =>
    obtain ⟨vs, hvs⟩ := headIn_char (k := .semi) (by decide) hb
    obtain ⟨_, s₃, hg, hs₃, ht₃, -⟩ := gettoken_cons (skip_le h₂.le) (hskip.trans hvs)
    have hlen₃ : (L.toks s₂).length = (L.toks s₃).length + 1 := by rw [hvs, ht₃]; rfl
    rw [if_pos rfl, bind_of_ok hg]
    refine (hline s₃ hs₃ (by omega)).bind fun c₄ s₄ h₄ => ?_
    obtain ⟨ws, hws, hder₄⟩ := h₄.read
    refine .of h₄.le ⟨h₂.all, h₄.all⟩ (congrArg (Cmd.list · _) hc₂) (.list n hder hder₄) ?_
    rw [hts, hus, hvs, ← ht₃, hws]
    simp only [append_assoc, cons_append]

/-- **What the parser accepts is derivable**, and it does not run out of fuel. -/
theorem parse_sound (L : Line) (fuel : ℕ) :
    Sound L .line (L.parseline fuel) fuel 4 ∧ Sound L .pipe (L.parsepipe fuel) fuel 3 ∧
    Sound L .exec (L.parseexec fuel) fuel 2 ∧ Sound L .exec (L.parseblock fuel) fuel 1 := by
  induction fuel with
  | zero =>
    refine ⟨?_, ?_, ?_, ?_⟩ <;> exact fun s hs h => absurd h (by omega)
  | succ fuel ih =>
    obtain ⟨hline, hpipe, hexec, hblock⟩ := ih
    exact ⟨parseline_sound hpipe hline, parsepipe_sound hexec hpipe, parseexec_sound hblock,
      parseblock_sound hline⟩

end Line

end Shell

end TrinityXv6
