import TrinityXv6.Shell.Parse

/-!
# The tokens of a line

The parser never looks at the line except through `gettoken` and `peek`. What they do is said once,
in terms of the tokens from a pointer on: `gettoken` takes the first of them, `peek` looks at it,
and neither depends on anything else.
-/

namespace TrinityXv6

namespace Shell

open Command

/-! ## Tokens -/

abbrev Word := List UInt8

inductive Token
  | word (w : Word)
  | sym (k : Symbol)
deriving DecidableEq

/-- The characters of a word. -/
def slice (buf : List UInt8) (w : Span) : Word :=
  (List.range (w.eq - w.q)).map fun i => deref buf (w.q + i)

/-- The character a symbol starts with. -/
def Symbol.char : Symbol → UInt8
  | .lt => chr '<'
  | .gt => chr '>'
  | .append => chr '>'
  | .bar => chr '|'
  | .amp => chr '&'
  | .semi => chr ';'
  | .lpar => chr '('
  | .rpar => chr ')'

def Token.tok : Token → Tok
  | .word _ => .word
  | .sym k => .sym k

namespace Line

variable (L : Line)

/-- What `gettoken` returns from `s` on, until it returns `0`. -/
def tokensFrom : (n s : ℕ) → List Token
  | 0, _ => []
  | n + 1, s =>
    match L.gettoken s with
    | .ok ((.word, w), s') => .word (slice L.buf w) :: tokensFrom n s'
    | .ok ((.sym k, _), s') => .sym k :: tokensFrom n s'
    | _ => []

/-- The tokens from `s` on. -/
def toks (s : ℕ) : List Token := L.tokensFrom (L.es - s) s

/-- A character of some word. -/
def Inside (i : ℕ) : Prop := i < L.es ∧ isWord (deref L.buf i) = true

/-- A longest word. -/
structure WordAt (w : Span) : Prop where
  le : w.q ≤ w.eq
  inside : ∀ i, w.q ≤ i → i < w.eq → L.Inside i
  ends : ¬ L.Inside w.eq

variable {L} {s s' : ℕ}

theorem lt_es (hs : s ≤ L.es) (h : deref L.buf s ≠ 0) : s < L.es :=
  lt_of_le_of_ne hs fun heq => h (heq ▸ L.zero)

/-! ### Scanning -/

theorem scanFrom_spec (p : UInt8 → Bool) (n s : ℕ) :
    s ≤ L.scanFrom p n s ∧ L.scanFrom p n s ≤ s + n ∧
    (∀ i, s ≤ i → i < L.scanFrom p n s → p (deref L.buf i) = true) ∧
    (L.scanFrom p n s < s + n → p (deref L.buf (L.scanFrom p n s)) = false) := by
  induction n generalizing s with
  | zero =>
    exact ⟨le_rfl, le_rfl, fun i h h' => absurd h' (not_lt.mpr h), fun h => absurd h (lt_irrefl _)⟩
  | succ n ih =>
    rw [scanFrom]
    cases hp : p (deref L.buf s) with
    | false =>
      exact ⟨le_rfl, Nat.le_add_right .., fun i h h' => absurd h' (not_lt.mpr h), fun _ => hp⟩
    | true =>
      obtain ⟨hle, hle', hall, hstop⟩ := ih (s + 1)
      rw [if_pos rfl]
      refine ⟨by omega, by omega, fun i hi hi' => ?_, fun h => hstop (by omega)⟩
      rcases Nat.eq_or_lt_of_le hi with rfl | hlt
      · exact hp
      · exact hall i hlt hi'

theorem scan_spec (p : UInt8 → Bool) (hs : s ≤ L.es) : s ≤ L.scan p s ∧ L.scan p s ≤ L.es ∧
    (∀ i, s ≤ i → i < L.scan p s → p (deref L.buf i) = true) ∧
    (L.scan p s < L.es → p (deref L.buf (L.scan p s)) = false) := by
  obtain ⟨hle, hle', hall, hstop⟩ := L.scanFrom_spec p (L.es - s) s
  rw [Nat.add_sub_cancel' hs] at hle' hstop
  exact ⟨hle, hle', hall, hstop⟩

/-- At a place where the scan stops it stays. -/
theorem scan_of_stop {p : UInt8 → Bool} (h : s < L.es → p (deref L.buf s) = false) :
    L.scan p s = s := by
  rw [scan]
  cases hn : L.es - s with
  | zero => rfl
  | succ n => rw [scanFrom, h (by omega)]; rfl

theorem le_skip (hs : s ≤ L.es) : s ≤ L.skip s := (L.scan_spec _ hs).1

theorem skip_le (hs : s ≤ L.es) : L.skip s ≤ L.es := (L.scan_spec _ hs).2.1

theorem skip_stop (hs : s ≤ L.es) (h : L.skip s < L.es) : deref L.buf (L.skip s) ∉ whitespace :=
  of_decide_eq_false ((L.scan_spec _ hs).2.2.2 h)

theorem skip_skip (hs : s ≤ L.es) : L.skip (L.skip s) = L.skip s :=
  scan_of_stop fun h => decide_eq_false (skip_stop hs h)

/-! ### The next token -/

/-- The symbols are what they start with. -/
theorem single_eq_some {c : UInt8} {k : Symbol} (h : single c = some k) : k.char = c := by
  unfold single at h
  split_ifs at h with h₁ h₂ h₃ h₄ h₅ h₆ <;> cases h
  all_goals exact Eq.symm ‹_›

theorem single_eq_none {c : UInt8} (h : single c = none) (hgt : c ≠ chr '>') : c ∉ symbols := by
  unfold single at h
  split_ifs at h with h₁ h₂ h₃ h₄ h₅ h₆
  simp only [symbols, List.mem_cons, List.not_mem_nil, or_false, not_or]
  exact ⟨h₆, h₁, hgt, h₅, h₄, h₂, h₃⟩

theorem lexeme_spec (hs : s < L.es) (hws : deref L.buf s ∉ whitespace) :
    s < (L.lexeme s).2 ∧ (L.lexeme s).2 ≤ L.es ∧
    ((∃ k : Symbol, k.char = deref L.buf s ∧ (L.lexeme s).1 = .sym k) ∨
      deref L.buf s ∉ symbols ∧ (L.lexeme s).1 = .word ∧ L.WordAt ⟨s, (L.lexeme s).2⟩) := by
  rw [lexeme, if_neg (L.nonzero s hs)]
  cases hk : single (deref L.buf s) with
  | some k => exact ⟨Nat.lt_succ_self s, hs, .inl ⟨k, single_eq_some hk, rfl⟩⟩
  | none =>
    by_cases hgt : deref L.buf s = chr '>'
    · show s < (if deref L.buf s = chr '>' then _ else _ : Tok × ℕ).2 ∧ _
      rw [if_pos hgt]
      by_cases hgt' : deref L.buf (s + 1) = chr '>'
      · have hlt : s + 1 < L.es := lt_es hs (by rw [hgt']; decide)
        rw [if_pos hgt']
        exact ⟨by omega, hlt, .inl ⟨.append, hgt.symm, rfl⟩⟩
      · rw [if_neg hgt']
        exact ⟨by omega, hs, .inl ⟨.gt, hgt.symm, rfl⟩⟩
    · show s < (if deref L.buf s = chr '>' then _ else _ : Tok × ℕ).2 ∧ _
      rw [if_neg hgt]
      obtain ⟨hle, hle', hall, hstop⟩ := L.scan_spec isWord hs.le
      have hsym := single_eq_none hk hgt
      have hne : L.scan isWord s ≠ s := fun heq => by
        rw [heq] at hstop
        exact of_decide_eq_false (hstop hs) ⟨hws, hsym⟩
      refine ⟨by omega, hle', .inr ⟨hsym, rfl, hle, fun i hi hi' => ?_, fun hin => ?_⟩⟩
      · exact ⟨lt_of_lt_of_le hi' hle', hall i hi hi'⟩
      · have := hstop hin.1
        rw [hin.2] at this
        cases this

section

variable (hs : s ≤ L.es)
include hs

/-- The three cases of `gettoken`. -/
theorem gettoken_cases : (deref L.buf (L.skip s) = 0 ∧ ∃ w, L.gettoken s = .ok ((.eof, w), L.es)) ∨
    (∃ k : Symbol, deref L.buf (L.skip s) = k.char ∧ ∃ w s', L.gettoken s = .ok ((.sym k, w), s') ∧
      s < s' ∧ s' ≤ L.es) ∨
    (deref L.buf (L.skip s) ∉ symbols ∧ ∃ w s', L.gettoken s = .ok ((.word, w), s') ∧
      L.WordAt w ∧ s < s' ∧ s' ≤ L.es) := by
  have hle := le_skip hs
  rcases Nat.eq_or_lt_of_le (skip_le hs) with heq | hlt
  · have hz : deref L.buf (L.skip s) = 0 := by rw [heq, L.zero]
    have hlex : L.lexeme (L.skip s) = (.eof, L.skip s) := by rw [lexeme, if_pos hz]
    refine .inl ⟨hz, ⟨L.skip s, L.skip s⟩, ?_⟩
    rw [gettoken, hlex, skip_skip hs, heq]
  · obtain ⟨hlt', hle', hkind⟩ := lexeme_spec hlt (skip_stop hs hlt)
    have hnext : s < L.skip (L.lexeme (L.skip s)).2 := by
      have := le_skip hle'
      omega
    right
    rcases hkind with ⟨k, hk, hlex⟩ | ⟨hsym, hlex, hw⟩
    · refine .inl ⟨k, hk.symm, ⟨L.skip s, (L.lexeme (L.skip s)).2⟩, _, ?_, hnext, skip_le hle'⟩
      rw [gettoken, hlex]
    · refine .inr ⟨hsym, ⟨L.skip s, (L.lexeme (L.skip s)).2⟩, _, ?_, hw, hnext, skip_le hle'⟩
      rw [gettoken, hlex]

/-- The number of calls is more than enough. -/
theorem tokensFrom_of_le {n : ℕ} (hn : L.es - s ≤ n) : L.tokensFrom n s = L.toks s := by
  have key : ∀ m n s, s ≤ L.es → L.es - s ≤ m → m ≤ n → L.tokensFrom m s = L.tokensFrom n s := by
    intro m
    induction m with
    | zero =>
      intro n s hs hm _
      obtain rfl : s = L.es := by omega
      cases n with
      | zero => rfl
      | succ n =>
        rcases gettoken_cases hs with ⟨-, w, hg⟩ | ⟨k, -, w, s', hg, hlt, hle⟩ |
          ⟨-, w, s', hg, -, hlt, hle⟩
        · rw [tokensFrom, tokensFrom, hg]
        · omega
        · omega
    | succ m ih =>
      intro n s hs hm hmn
      cases n with
      | zero => omega
      | succ n =>
        rw [tokensFrom, tokensFrom]
        rcases gettoken_cases hs with ⟨-, w, hg⟩ | ⟨k, -, w, s', hg, hlt, hle⟩ |
          ⟨-, w, s', hg, -, hlt, hle⟩
        · rw [hg]
        · rw [hg]
          exact congrArg _ (ih n s' hle (by omega) (by omega))
        · rw [hg]
          exact congrArg _ (ih n s' hle (by omega) (by omega))
  exact (key _ n s hs le_rfl hn).symm

/-- The tokens from `s` on, by what stands there. -/
theorem toks_cases :
    (L.toks s = [] ∧ deref L.buf (L.skip s) = 0 ∧ ∃ w, L.gettoken s = .ok ((.eof, w), L.es)) ∨
    (∃ k s', L.toks s = .sym k :: L.toks s' ∧ deref L.buf (L.skip s) = k.char ∧
      (∃ w, L.gettoken s = .ok ((.sym k, w), s')) ∧ s' ≤ L.es) ∨
    (∃ w s', L.toks s = .word (slice L.buf w) :: L.toks s' ∧ deref L.buf (L.skip s) ∉ symbols ∧
      L.gettoken s = .ok ((.word, w), s') ∧ L.WordAt w ∧ s' ≤ L.es) := by
  have hunfold : L.toks s = L.tokensFrom (L.es - s + 1) s :=
    (tokensFrom_of_le hs (Nat.le_succ _)).symm
  rw [hunfold, tokensFrom]
  rcases gettoken_cases hs with ⟨hz, w, hg⟩ | ⟨k, hk, w, s', hg, hlt, hle⟩ |
    ⟨hsym, w, s', hg, hw, hlt, hle⟩
  · rw [hg]
    exact .inl ⟨rfl, hz, w, rfl⟩
  · rw [hg]
    refine .inr (.inl ⟨k, s', ?_, hk, ⟨w, rfl⟩, hle⟩)
    exact congrArg _ (tokensFrom_of_le hle (by omega))
  · rw [hg]
    refine .inr (.inr ⟨w, s', ?_, hsym, rfl, hw, hle⟩)
    exact congrArg _ (tokensFrom_of_le hle (by omega))

theorem gettoken_nil (h : L.toks s = []) :
    ∃ w s', L.gettoken s = .ok ((.eof, w), s') ∧ s' ≤ L.es ∧ L.toks s' = [] := by
  rcases toks_cases hs with ⟨-, -, w, hg⟩ | ⟨k, s', ht, -⟩ | ⟨w, s', ht, -⟩
  · refine ⟨w, L.es, hg, le_rfl, ?_⟩
    rw [toks, Nat.sub_self, tokensFrom]
  · rw [h] at ht
    cases ht
  · rw [h] at ht
    cases ht

theorem gettoken_cons {t : Token} {ts : List Token} (h : L.toks s = t :: ts) :
    ∃ w s', L.gettoken s = .ok ((t.tok, w), s') ∧ s' ≤ L.es ∧ L.toks s' = ts ∧
      ∀ x, t = .word x → L.WordAt w ∧ slice L.buf w = x := by
  rcases toks_cases hs with ⟨ht, -⟩ | ⟨k, s', ht, -, ⟨w, hg⟩, hle⟩ | ⟨w, s', ht, -, hg, hw, hle⟩
  · rw [h] at ht
    cases ht
  · obtain ⟨rfl, rfl⟩ := List.cons.inj (h.symm.trans ht)
    exact ⟨w, s', hg, hle, rfl, fun x hx => by cases hx⟩
  · obtain ⟨rfl, rfl⟩ := List.cons.inj (h.symm.trans ht)
    exact ⟨w, s', hg, hle, rfl, fun x hx => ⟨hw, by cases hx; rfl⟩⟩

theorem toks_skip : L.toks (L.skip s) = L.toks s := by
  have hg : L.gettoken (L.skip s) = L.gettoken s := by rw [gettoken, gettoken, skip_skip hs]
  have hle := le_skip hs
  rw [← tokensFrom_of_le hs (Nat.le_succ _), ← tokensFrom_of_le (skip_le hs)
    (show L.es - L.skip s ≤ L.es - s + 1 by omega), tokensFrom, tokensFrom, hg]

end

/-- The next token is a symbol that starts with one of `cs`. -/
def headIn (cs : List UInt8) : List Token → Bool
  | [] => false
  | .word _ :: _ => false
  | .sym k :: _ => decide (k.char ∈ cs)

theorem Symbol.char_ne_zero (k : Symbol) : k.char ≠ 0 := by
  cases k <;> decide

/-- **`peek`** looks at the next token. -/
theorem peek_eq {cs : List UInt8} (hs : s ≤ L.es) (hcs : cs ⊆ symbols) :
    L.peek cs s = .ok (headIn cs (L.toks s), L.skip s) := by
  rw [peek]
  rcases toks_cases hs with ⟨ht, hz, -⟩ | ⟨k, s', ht, hk, -⟩ | ⟨w, s', ht, hsym, -⟩
  · rw [ht, hz]
    rfl
  · rw [ht, hk, headIn, decide_eq_decide.mpr (and_iff_right (Symbol.char_ne_zero k))]
  · rw [ht, headIn, decide_eq_false fun h => hsym (hcs h.2)]

end Line

end Shell

end TrinityXv6
