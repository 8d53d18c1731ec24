import Minigraf.Query.Truncation

/-!
The parentheses among the tokens of a value: they close as they open, no deeper than the
value may nest, and those of a list close with its last token.
-/

namespace Minigraf

def Token.delta : Token → Int
  | .leftParen => 1
  | .rightParen => -1
  | _ => 0

def parenDepth (tokens : List Token) : Int := (tokens.map Token.delta).sum

theorem parenDepth_append (a b : List Token) : parenDepth (a ++ b) = parenDepth a + parenDepth b := by
  rw [parenDepth, List.map_append, List.sum_append]
  rfl

theorem parenDepth_cons (t : Token) (ts : List Token) : parenDepth (t :: ts) = t.delta + parenDepth ts := List.sum_cons

/-- Tokens whose parentheses close as they open, no more than so many at once. -/
structure Balanced (levels : Nat) (tokens : List Token) : Prop where
  total : parenDepth tokens = 0
  low : ∀ front back, tokens = front ++ back → 0 ≤ parenDepth front
  high : ∀ front back, tokens = front ++ back → parenDepth front ≤ levels

theorem Balanced.nil (levels : Nat) : Balanced levels [] where
  total := rfl
  low front back split := by
    rw [(List.append_eq_nil_iff.mp split.symm).1]
    exact Int.le_refl 0
  high front back split := by
    rw [(List.append_eq_nil_iff.mp split.symm).1]
    exact Int.natCast_nonneg levels

theorem Balanced.quiet {t : Token} (quiet : t.delta = 0) {levels : Nat} {tokens : List Token} (balanced : Balanced levels tokens) :
    Balanced levels (t :: tokens) where
  total := by rw [parenDepth_cons, quiet, balanced.total, Int.add_zero]
  low front back split := by
    cases front with
    | nil => exact Int.le_refl 0
    | cons s front =>
        obtain ⟨rfl, tail⟩ := List.cons.inj split
        rw [parenDepth_cons, quiet, Int.zero_add]
        exact balanced.low front back tail
  high front back split := by
    cases front with
    | nil => exact Int.natCast_nonneg levels
    | cons s front =>
        obtain ⟨rfl, tail⟩ := List.cons.inj split
        rw [parenDepth_cons, quiet, Int.zero_add]
        exact balanced.high front back tail

theorem Balanced.append {levels : Nat} {a b : List Token} (first : Balanced levels a) (second : Balanced levels b) :
    Balanced levels (a ++ b) where
  total := by rw [parenDepth_append, first.total, second.total, Int.add_zero]
  low front back split := by
    obtain ⟨mid, own, rest⟩ | ⟨mid, own, rest⟩ := List.append_eq_append_iff.mp split
    · rw [own, parenDepth_append, first.total, Int.zero_add]
      exact second.low mid back rest
    · exact first.low front mid own
  high front back split := by
    obtain ⟨mid, own, rest⟩ | ⟨mid, own, rest⟩ := List.append_eq_append_iff.mp split
    · rw [own, parenDepth_append, first.total, Int.zero_add]
      exact second.high mid back rest
    · exact first.high front mid own

/-- In parentheses nothing is closed before the last token. -/
theorem Balanced.inside {levels : Nat} {tokens : List Token} (balanced : Balanced levels tokens) {front back : List Token}
    (split : .leftParen :: (tokens ++ [.rightParen]) = front ++ back) (some_ : front ≠ []) (more : back ≠ []) :
    1 ≤ parenDepth front ∧ parenDepth front ≤ levels + 1 := by
  cases front with
  | nil => exact absurd rfl some_
  | cons t front =>
      obtain ⟨rfl, tail⟩ := List.cons.inj split
      have own : ∃ mid, tokens = front ++ mid := by
        obtain ⟨mid, own, rest⟩ | ⟨mid, own, _⟩ := List.append_eq_append_iff.mp tail
        · cases mid with
          | nil =>
              rw [List.append_nil] at own
              exact ⟨[], by rw [own, List.append_nil]⟩
          | cons s mid => exact absurd (List.append_eq_nil_iff.mp (List.cons.inj rest).2.symm).2 more
        · exact ⟨mid, own⟩
      obtain ⟨mid, own⟩ := own
      have low := balanced.low front mid own
      have high := balanced.high front mid own
      rw [parenDepth_cons]
      simp only [Token.delta]
      omega

theorem Balanced.paren {levels : Nat} {tokens : List Token} (balanced : Balanced levels tokens) :
    Balanced (levels + 1) (.leftParen :: (tokens ++ [.rightParen])) := by
  have total : parenDepth (.leftParen :: (tokens ++ [.rightParen])) = 0 := by
    rw [parenDepth_cons, parenDepth_append, balanced.total]
    rfl
  have each : ∀ front back, .leftParen :: (tokens ++ [.rightParen]) = front ++ back →
      0 ≤ parenDepth front ∧ parenDepth front ≤ (levels + 1 : Nat) := by
    intro front back split
    by_cases none_ : front = []
    · rw [none_]
      exact ⟨Int.le_refl 0, Int.natCast_nonneg _⟩
    · by_cases all : back = []
      · rw [all, List.append_nil] at split
        rw [← split, total]
        exact ⟨Int.le_refl 0, Int.natCast_nonneg _⟩
      · have inside := balanced.inside split none_ all
        omega
  exact ⟨total, fun front back split => (each front back split).1, fun front back split => (each front back split).2⟩

theorem Balanced.mono {levels levels' : Nat} {tokens : List Token} (balanced : Balanced levels tokens) (more : levels ≤ levels') :
    Balanced levels' tokens where
  total := balanced.total
  low := balanced.low
  high front back split := by
    have own := balanced.high front back split
    omega

section

variable {env : ReaderEnv}

theorem atomValue_delta {t : Token} {v : EdnValue} (own : atomValue t = some v) : t.delta = 0 := by
  cases t with
  | leftParen | rightParen => cases own
  | _ => rfl

theorem balanced_loop {β : Type} {reader : Reader ReadError Token β} {levels : Nat}
    (step : ∀ {t : Token} {rest left : List Token} {b : β}, reader.read t rest = .ok (b, left) →
      ∃ tokens, rest = tokens ++ left ∧ Balanced levels (t :: tokens))
    {close : Token} {e : ReadError} {input left : List Token} {bs : List β}
    (loop : reader.Loop (fun t => decide (t = close)) (some e) input bs left) :
    ∃ tokens, input = tokens ++ close :: left ∧ Balanced levels tokens := by
  induction loop with
  | nil open_ => cases open_
  | close closes =>
      rw [of_decide_eq_true closes]
      exact ⟨[], rfl, .nil levels⟩
  | @cons a _ _ _ _ _ _ run _ ih =>
      obtain ⟨tokens, split, balanced⟩ := step run
      obtain ⟨later, split', balanced'⟩ := ih
      refine ⟨a :: tokens ++ later, ?_, balanced.append balanced'⟩
      rw [split, split', List.cons_append, List.cons_append, List.append_assoc]

theorem balanced_value {depth : Nat} {t : Token} {rest left : List Token} {v : EdnValue}
    (run : (parseValue env depth).read t rest = .ok (v, left)) : ∃ tokens, rest = tokens ++ left ∧ Balanced depth (t :: tokens) := by
  induction depth generalizing t rest left v with
  | zero => cases run
  | succ depth ih =>
      obtain ⟨_, same, reads⟩ := parseValue_ok_iff.mp run
      cases same
      cases reads with
      | atom own => exact ⟨[], rfl, (Balanced.nil _).quiet (atomValue_delta own)⟩
      | @uuid s => exact ⟨[.string s], rfl, ((Balanced.nil _).quiet rfl).quiet rfl⟩
      | list loop =>
          obtain ⟨tokens, split, balanced⟩ := balanced_loop ih loop
          exact ⟨tokens ++ [.rightParen], by rw [split, List.append_assoc]; rfl, balanced.paren⟩
      | vector loop =>
          obtain ⟨tokens, split, balanced⟩ := balanced_loop ih loop
          exact ⟨tokens ++ [.rightBracket], by rw [split, List.append_assoc]; rfl,
            ((balanced.mono (Nat.le_succ depth)).append ((Balanced.nil _).quiet rfl)).quiet rfl⟩
      | map loop =>
          have step : ∀ {t : Token} {rest left : List Token} {e : EdnValue × EdnValue},
              (entryReader (parseValue env depth)).read t rest = .ok (e, left) →
                ∃ tokens, rest = tokens ++ left ∧ Balanced depth (t :: tokens) := by
            intro t rest left e run
            obtain ⟨t', rest', first, second⟩ := parseEntry_ok run
            obtain ⟨key, split, balanced⟩ := ih first
            obtain ⟨val, split', balanced'⟩ := ih second
            refine ⟨key ++ t' :: val, ?_, balanced.append balanced'⟩
            rw [split, split', List.append_assoc]
            rfl
          obtain ⟨tokens, split, balanced⟩ := balanced_loop step loop
          exact ⟨tokens ++ [.rightBrace], by rw [split, List.append_assoc]; rfl,
            ((balanced.mono (Nat.le_succ depth)).append ((Balanced.nil _).quiet rfl)).quiet rfl⟩

/-- The tokens of a command: one list, whose parentheses close with its last token. -/
structure CommandTokens (tokens : List Token) : Prop where
  first : tokens.head? = some .leftParen
  total : parenDepth tokens = 0
  inside : ∀ front back, tokens = front ++ back → front ≠ [] → back ≠ [] → 1 ≤ parenDepth front ∧ parenDepth front ≤ maxRecursionDepth

theorem commandTokens_of_list {t : Token} {rest : List Token} {elements : List EdnValue}
    (run : (parseValue env maxRecursionDepth).read t rest = .ok (.list elements, [])) : CommandTokens (t :: rest) := by
  obtain ⟨below, levels, reads⟩ := parseValue_ok_iff.mp run
  generalize same : EdnValue.list elements = v at reads
  generalize none_ : ([] : List Token) = left at reads
  cases reads with
  | list loop =>
      obtain ⟨tokens, split, balanced⟩ := balanced_loop balanced_value loop
      rw [← none_] at split
      rw [split]
      refine ⟨rfl, balanced.paren.total, ?_⟩
      intro front back whole some_ more
      have inside := balanced.inside whole some_ more
      rw [levels]
      omega
  | atom own =>
      rw [← same] at own
      exact absurd own (atomValue_ne_list t elements)
  | uuid | vector | map => cases same

end
end Minigraf
