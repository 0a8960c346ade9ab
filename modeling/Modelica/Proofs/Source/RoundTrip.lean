import Modelica.Proofs.Source.Reading

set_option autoImplicit false

namespace Modelica

open Source.Parser
open Word (positionAfter tokensFrom tokensFrom_append tokensFrom_cons tokensFrom_nil)
open List (append_assoc cons_append length_append length_cons length_nil nil_append)

structure Apart (rest : List Token) : Prop where
  noDot : nextKind rest ≠ .terminal .dot
  noBracket : nextKind rest ≠ .terminal .leftBracket
  noParen : nextKind rest ≠ .terminal .leftParen

structure Follows (level : Nat) (rest : List Token) : Prop extends Apart rest where
  noPower : isPower (nextKind rest) = none
  looser : ∀ p sign, precedence (nextKind rest) = some (p, sign) → p ≤ level

def Closing (rest : List Token) : Prop := continuesName (nextKind rest) = false

theorem Closing.follows {rest : List Token} (closing : Closing rest) (level : Nat) : Follows level rest := by
  simp only [Closing, continuesName, Bool.or_eq_false_iff, decide_eq_false_iff_not,
    Option.isSome_eq_false_iff, Option.isNone_iff_eq_none] at closing
  obtain ⟨⟨⟨⟨⟨noBinary, noPower⟩, noDot⟩, noBracket⟩, noParen⟩, _⟩ := closing
  exact ⟨⟨noDot, noBracket, noParen⟩, noPower, by simp [noBinary]⟩

theorem Closing.noColon {rest : List Token} (closing : Closing rest) : nextKind rest ≠ .terminal .colon := by
  simp only [Closing, continuesName, Bool.or_eq_false_iff, decide_eq_false_iff_not] at closing
  exact closing.2

namespace Phrase

theorem precedence_sign (t : Terminal) (p : Nat) : level? t = some p ↔ precedence (.terminal t) = some (p, t) := by
  cases t <;> simp [level?, precedence]

def Reads : Phrase → List Word → Prop
  | primary e, ws => ∃ s, Define.expr s = .ok e ∧ Define.primary s = .ok (some e) ∧
      ∀ p rest n, Apart rest → 8 * ws.length ≤ n →
        Source.Parser.primary n (Word.tokensFrom p ws ++ rest) = .ok (s, rest)
  | operand own e, ws => ∃ s, Define.expr s = .ok e ∧
      ∀ level ≤ own, ∀ p rest n, Follows own rest → 8 * ws.length + 1 ≤ n →
        ∃ m, n ≤ m + 8 * ws.length ∧
          expr n level (Word.tokensFrom p ws ++ rest) = climb m level s rest
  | whole e, ws => ∃ s, Define.expr s = .ok e ∧
      ∀ p rest n, Closing rest → 8 * ws.length + 3 ≤ n →
        expression n (Word.tokensFrom p ws ++ rest) = .ok (s, rest)
  | items es, ws => ∃ a, Define.operandsOf a = .ok es ∧
      ∀ p t rest n, t.kind = .terminal .rightParen ∨ t.kind = .terminal .rightBrace →
        8 * ws.length + 5 ≤ n →
        functionArguments n (Word.tokensFrom p ws ++ t :: rest) = .ok (a, t :: rest)
  | moreItems es, ws => ∃ as, Define.argumentItems as = .ok (es.map some) ∧
      ∀ p t rest n, t.kind = .terminal .rightParen ∨ t.kind = .terminal .rightBrace →
        8 * ws.length + 2 ≤ n →
        moreArguments n (Word.tokensFrom p ws ++ t :: rest) = .ok (as, t :: rest)
  | part name groups, ws => ∃ x, Define.part x = .ok (name, groups) ∧
      ∀ p rest n, nextKind rest ≠ .terminal .leftBracket → 8 * ws.length ≤ n + 2 →
        referencePart .expression n (Word.tokensFrom p ws ++ rest) = .ok (x, rest)
  | reference r, ws => ∃ x xs, Define.reference (x :: xs) = .ok r ∧
      ∀ p rest n, nextKind rest ≠ .terminal .leftBracket → nextKind rest ≠ .terminal .dot →
        8 * ws.length ≤ n + 1 →
        Source.Parser.reference .expression n (Word.tokensFrom p ws ++ rest) = .ok (x :: xs, rest)
  | subscript e, ws => ∃ x, Define.subscripts [x] = .ok [e] ∧
      ∀ p rest n, Closing rest → 8 * ws.length + 4 ≤ n →
        Source.Parser.subscript n (Word.tokensFrom p ws ++ rest) = .ok (x, rest)
  | subscripts es, ws => ∃ xs, Define.subscripts xs = .ok es ∧
      ∀ p t u rest n, t.kind = .terminal .leftBracket → u.kind = .terminal .rightBracket →
        8 * ws.length + 8 ≤ n →
        Source.Parser.subscripts n (t :: Word.tokensFrom p ws ++ u :: rest) = .ok (xs, rest)
  | moreSubscripts es, ws => ∃ xs, Define.subscripts xs = .ok es ∧
      ∀ p u rest k m, u.kind = .terminal .rightBracket → 8 * ws.length + 4 ≤ k →
        ws.length + 1 ≤ m →
        following .comma (Source.Parser.subscript k) m (Word.tokensFrom p ws ++ u :: rest) =
          .ok (xs, u :: rest)
  | branches cs vs, ws => ∃ bs, Define.branches bs = .ok (cs, vs) ∧
      ∀ p u rest k m, u.kind = .terminal .else_ → 8 * ws.length + 4 ≤ k → ws.length + 1 ≤ m →
        manyWhile (accept .elseif) (branch k) m (Word.tokensFrom p ws ++ u :: rest) =
          .ok (bs, u :: rest)

end Phrase

theorem Follows.sign {sign : Terminal} {own : Nat} (binds : Phrase.level? sign = some own)
    (p : Position) (ts : List Token) : Follows own (⟨(Word.sign sign).kind, (Word.sign sign).text, p⟩ :: ts) := by
  refine ⟨⟨?_, ?_, ?_⟩, ?_, ?_⟩
  · rintro ⟨⟩
    cases binds
  · rintro ⟨⟩
    cases binds
  · rintro ⟨⟩
    cases binds
  · cases sign <;> first | rfl | cases binds
  · intro q other same
    rw [nextKind_cons, Word.kind, (Phrase.precedence_sign sign own).1 binds] at same
    cases same
    exact Nat.le_refl own

theorem Define.subscripts_cons (x : Source.Subscript) (xs : List Source.Subscript) (e : Expr)
    (es : List Expr) (first : Define.subscripts [x] = .ok [e]) (more : Define.subscripts xs = .ok es) :
    Define.subscripts (x :: xs) = .ok (e :: es) := by
  cases x with
  | all =>
    simp only [Define.subscripts, more] at first ⊢
    cases first
    rfl
  | expr s =>
    cases value : Define.expr s with
    | error c => simp [Define.subscripts, value, bind, Except.bind] at first
    | ok v =>
      simp only [Define.subscripts, value, more] at first ⊢
      cases first
      rfl

namespace Printed

variable {ws vs : List Word}

variable {phrase : Phrase} {e : Expr} {es : List Expr}

theorem nextKind_start (printed : Printed phrase ws) (needed : phrase.optional = false)
    (p : Position) (rest : List Token) : ∃ w, phrase.starts w ∧ nextKind (tokensFrom p ws ++ rest) = w.kind := by
  obtain ⟨w, vs, rfl, starts⟩ := printed.start needed
  exact ⟨w, starts, rfl⟩

theorem length_pos (printed : Printed phrase ws) (needed : phrase.optional = false) : 0 < ws.length := by
  obtain ⟨w, vs, rfl, _⟩ := printed.start needed
  simp

theorem whole_start (printed : Printed (.whole e) ws) (p : Position) (rest : List Token)
    (t : Terminal) (other : t ∉ [Terminal.true_, .false_, .der, .leftBrace, .leftParen, .minus, .not_, .if_]) :
    nextKind (tokensFrom p ws ++ rest) ≠ .terminal t := by
  obtain ⟨w, starts, same⟩ := printed.nextKind_start rfl p rest
  rw [same]
  exact w.kind_ne_of_opens starts t other

theorem primary_start (printed : Printed (.primary e) ws) (p : Position) (rest : List Token)
    (t : Terminal) (other : t ∉ [Terminal.true_, .false_, .der, .leftBrace, .leftParen]) :
    nextKind (tokensFrom p ws ++ rest) ≠ .terminal t := by
  obtain ⟨w, starts, same⟩ := printed.nextKind_start rfl p rest
  rw [same]
  exact w.kind_ne_of_opens starts t other

theorem reference_start {r : ComponentRef} (printed : Printed (.reference r) ws) (p : Position)
    (rest : List Token) : nextKind (tokensFrom p ws ++ rest) = .ident := by
  obtain ⟨w, rfl, same⟩ := printed.nextKind_start rfl p rest
  exact same

theorem closing_branches {cs vs : List Expr} (printed : Printed (.branches cs vs) ws)
    (p : Position) (u : Token) (rest : List Token) (isElse : u.kind = .terminal .else_) :
    Closing (tokensFrom p ws ++ u :: rest) := by
  cases printed with
  | noBranch =>
    unfold Closing
    rw [tokensFrom_nil, nil_append, nextKind_cons, isElse]
    rfl
  | branch => rfl

section

variable (printed : Printed (.moreItems es) ws) (p : Position) (t : Token) (rest : List Token)
include printed p t rest

theorem nextKind_items :
    nextKind (tokensFrom p ws ++ t :: rest) = .terminal .comma ∨
      nextKind (tokensFrom p ws ++ t :: rest) = t.kind := by
  cases printed with
  | noItem => exact .inr rfl
  | item => exact .inl rfl

theorem closing_items (isClose : t.kind = .terminal .rightParen ∨ t.kind = .terminal .rightBrace) :
    Closing (tokensFrom p ws ++ t :: rest) := by
  unfold Closing
  obtain same | same := printed.nextKind_items p t rest <;> rw [same]
  · rfl
  · obtain close | close := isClose <;> rw [close] <;> rfl

end

theorem closing_subscripts (printed : Printed (.moreSubscripts es) ws) (p : Position) (u : Token)
    (rest : List Token) (isClose : u.kind = .terminal .rightBracket) : Closing (tokensFrom p ws ++ u :: rest) := by
  unfold Closing
  cases printed with
  | noSubscript =>
    rw [tokensFrom_nil, nil_append, nextKind_cons, isClose]
    rfl
  | nextSubscript => rfl

theorem needExprs_some (es : List Expr) : Define.needExprs (es.map some) = .ok es := by
  induction es with
  | nil => rfl
  | cons e es ih =>
    simp only [List.map_cons, Define.needExprs, Define.needExpr, ih]
    rfl

end Printed

namespace Phrase.Reads

variable {ws vs : List Word}

variable {s : String} {r : ComponentRef} {es cs values : List Expr} {e l c v : Expr}
  {level own : Nat} {sign : Terminal} {first second more : List Word} {groups : Option (List Expr)}

theorem number {v : Literal} (numeral : Numeral s v) : (primary (.literal v)).Reads [.number s] := by
  have value : Define.number s = .ok (.literal v) := by
    cases numeral with
    | integer start digits short => simp [Define.number, digits, short]
    | real x reads other value => simp [Define.number, other, value]
  refine ⟨.number s, by simpa [Define.expr] using value, ?_, ?_⟩
  · simp only [Define.primary, value]
    rfl
  · intro p rest n _ enough
    obtain _ | m := n
    · simp at enough
    exact primary_number m rest _ rfl

theorem string (s : String) : (primary (.literal (.string s))).Reads [.string s] := by
  have inner : Text.inner (Word.string s).text = s := by
    simp [Text.inner, Word.text, String.toList_append, String.ofList_toList]
  refine ⟨.string (Word.string s).text, by simp [Define.expr, inner], by simp [Define.primary, inner], ?_⟩
  intro p rest n _ enough
  obtain _ | m := n
  · simp at enough
  exact primary_string m rest _ rfl

theorem bool (b : Bool) : (primary (.literal (.bool b))).Reads [.sign (if b then .true_ else .false_)] := by
  refine ⟨.bool b, by simp [Define.expr], by simp [Define.primary], ?_⟩
  intro p rest n _ enough
  obtain _ | m := n
  · simp at enough
  exact primary_bool m rest b _ rfl

theorem ref (printed : Printed (.reference r) ws) (read : (reference r).Reads ws) : (primary (.ref r)).Reads ws := by
  obtain ⟨x, xs, means, read⟩ := read
  have pos := printed.length_pos rfl
  refine ⟨.ref (x :: xs), ?_, ?_, ?_⟩
  · simp only [Define.expr, means]
    rfl
  · simp only [Define.primary, means]
    rfl
  · intro p rest n apart enough
    obtain _ | m := n
    · omega
    exact primary_ref m _ rest _ (printed.reference_start p rest)
      (read p rest m apart.noBracket apart.noDot (by omega)) apart.noParen

theorem inBrackets (printed : Printed (.items es) ws) (read : (items es).Reads ws) : ∃ a, Define.operandsOf a = .ok es ∧
      ∀ p t rest n, t.kind = .terminal .leftParen → 8 * ws.length + 6 ≤ n →
        callArguments n (t :: (tokensFrom p (ws ++ [.sign .rightParen]) ++ rest)) = .ok (a, rest) := by
  obtain ⟨a, means, read⟩ := read
  refine ⟨a, means, ?_⟩
  intro p t rest n isOpen enough
  obtain _ | m := n
  · omega
  have first : ∀ rest, nextKind (tokensFrom p ws ++ rest) ≠ .terminal .rightParen := by
    intro rest
    obtain ⟨w, starts, same⟩ := printed.nextKind_start rfl p rest
    rw [same]
    exact w.kind_ne_of_opens starts _ (by decide)
  simp only [tokensFrom_append, append_assoc, tokensFrom_cons, tokensFrom_nil, cons_append, nil_append]
  exact callArguments_read m _ rest a t _ isOpen rfl (first _) (read p _ rest m (.inl rfl) (by omega))

theorem call {f : ComponentRef} (function : Printed (.reference f) ws)
    (arguments : Printed (.items es) vs) (readFunction : (reference f).Reads ws)
    (readItems : (items es).Reads vs) :
    (primary (.apply (.function f) es)).Reads (ws ++ .sign .leftParen :: (vs ++ [.sign .rightParen])) := by
  obtain ⟨x, xs, names, readFunction⟩ := readFunction
  obtain ⟨a, means, readItems⟩ := inBrackets arguments readItems
  refine ⟨.call (x :: xs) a, ?_, ?_, ?_⟩
  · simp only [Define.expr, names, means]
    rfl
  · simp only [Define.primary, names, means]
    rfl
  · intro p rest n _ enough
    simp only [length_append, length_cons, length_nil] at enough
    obtain _ | m := n
    · omega
    rw [tokensFrom_append, append_assoc, tokensFrom_cons, cons_append]
    exact primary_call m _ rest _ a _ (function.reference_start p _)
      (readFunction p _ m (by simp [Word.kind]) (by simp [Word.kind]) (by omega)) rfl
      (readItems _ _ rest m rfl (by omega))

theorem der (arguments : Printed (.items es) ws) (read : (items es).Reads ws) :
    (primary (.apply (.named "der") es)).Reads (.sign .der :: .sign .leftParen :: (ws ++ [.sign .rightParen])) := by
  obtain ⟨a, means, read⟩ := inBrackets arguments read
  refine ⟨.der a, ?_, ?_, ?_⟩
  · simp only [Define.expr, means]
    rfl
  · simp only [Define.primary, means]
    rfl
  · intro p rest n _ enough
    simp only [length_append, length_cons, length_nil] at enough
    obtain _ | m := n
    · omega
    rw [tokensFrom_cons, tokensFrom_cons, cons_append, cons_append]
    exact primary_der m _ rest a _ rfl (read _ _ rest m rfl (by omega))

theorem array (read : (items es).Reads ws) :
    (primary (.array es)).Reads (.sign .leftBrace :: (ws ++ [.sign .rightBrace])) := by
  obtain ⟨a, means, read⟩ := read
  refine ⟨.braces a, ?_, ?_, ?_⟩
  · simp only [Define.expr, means]
    rfl
  · simp only [Define.primary, means]
    rfl
  · intro p rest n _ enough
    simp only [length_append, length_cons, length_nil] at enough
    obtain _ | m := n
    · omega
    simp only [tokensFrom_cons, tokensFrom_append, tokensFrom_nil, append_assoc, cons_append, nil_append]
    exact primary_braces m _ rest a _ _ rfl rfl (read _ _ rest m (.inr rfl) (by omega))

theorem paren (printed : Printed (.whole e) ws) (read : (whole e).Reads ws) :
    (primary e).Reads (.sign .leftParen :: (ws ++ [.sign .rightParen])) := by
  obtain ⟨s, means, read⟩ := read
  have inside : Define.exprs [s] = .ok [e] := by
    simp only [Define.exprs, means]
    rfl
  refine ⟨.paren [s], ?_, ?_, ?_⟩
  · simp only [Define.expr, inside]
    rfl
  · simp only [Define.primary, inside]
    rfl
  · intro p rest n _ enough
    simp only [length_append, length_cons, length_nil] at enough
    obtain ⟨m, rfl⟩ : ∃ m, n = m + 2 := ⟨n - 2, by omega⟩
    simp only [tokensFrom_cons, tokensFrom_append, tokensFrom_nil, append_assoc, cons_append, nil_append]
    exact primary_paren m _ rest s _ _ rfl rfl (printed.whole_start _ _ _ (by decide))
      (printed.whole_start _ _ _ (by decide)) (read _ _ (m + 1) rfl (by omega))

theorem bare (printed : Printed (.primary e) ws) (read : (primary e).Reads ws) : (operand level e).Reads ws := by
  obtain ⟨s, means, _, read⟩ := read
  have pos := printed.length_pos rfl
  refine ⟨s, means, ?_⟩
  intro limit _ p rest n follows enough
  obtain _ | m := n
  · omega
  refine ⟨m, by omega, ?_⟩
  exact expr_primary m limit _ rest s (printed.primary_start p rest _ (by decide))
    (printed.primary_start p rest _ (by decide)) (read p rest m follows.toApart (by omega))
    follows.noPower

theorem power {r : Expr} (isPower : sign = .caret ∨ sign = .dotCaret)
    (left : Printed (.primary l) ws) (readLeft : (primary l).Reads ws) (readRight : (primary r).Reads vs) :
    (operand level (.apply (.named sign.spelling) [l, r])).Reads (ws ++ .sign sign :: vs) := by
  obtain ⟨s, _, meansLeft, readLeft⟩ := readLeft
  obtain ⟨t, _, meansRight, readRight⟩ := readRight
  refine ⟨.binary sign s t, ?_, ?_⟩
  · have caret : (decide (sign = .caret) || decide (sign = .dotCaret)) = true := by simpa using isPower
    simp only [Define.expr, caret, if_true, meansLeft, meansRight]
    rfl
  · intro limit _ p rest n follows enough
    simp only [length_append, length_cons] at enough ⊢
    obtain _ | m := n
    · omega
    refine ⟨m, by omega, ?_⟩
    rw [tokensFrom_append, append_assoc, tokensFrom_cons, cons_append]
    have apart : ∀ ts, Apart (⟨.terminal sign, sign.spelling, positionAfter p ws⟩ :: ts) := by
      intro ts
      obtain rfl | rfl := isPower <;> exact ⟨nofun, nofun, nofun⟩
    refine expr_power m limit _ rest s t sign _ _ (left.primary_start p _ _ (by decide))
      (left.primary_start p _ _ (by decide)) (readLeft p _ m (apart _) (by omega)) ?_
      (readRight _ rest m follows.toApart (by omega))
    obtain rfl | rfl := isPower <;> rfl

theorem complete (read : (operand own e).Reads ws) : ∃ s,
    Define.expr s = .ok e ∧ ∀ {level} p rest n, Follows level rest →
      (∀ q sign, precedence (nextKind rest) = some (q, sign) → q < own) →
      8 * ws.length + 1 ≤ n → expr n own (tokensFrom p ws ++ rest) = .ok (s, rest) := by
  obtain ⟨s, means, read⟩ := read
  refine ⟨s, means, ?_⟩
  intro _ p rest n follows below enough
  obtain ⟨m, bound, same⟩ := read own (Nat.le_refl own) p rest n
    { follows with looser := fun q sign found => Nat.le_of_lt (below q sign found) } enough
  obtain _ | k := m
  · omega
  rw [same, climb_stop k own rest s below]

theorem precedence_lt (k : TokenKind) (p : Nat) (sign : Terminal)
    (found : precedence k = some (p, sign)) : p < 9 ∧ p ≠ 4 ∧ 0 < p := by
  cases k with
  | terminal t => cases t <;> simp [precedence] at found <;> omega
  | ident | string | number | comment | eof => cases found

theorem neg (read : (operand negationLevel e).Reads ws) :
    (operand level (.apply (.named "-") [e])).Reads (.sign .minus :: ws) := by
  obtain ⟨s, means, read⟩ := read.complete
  refine ⟨.neg s, ?_, ?_⟩
  · simp only [Define.expr, means]
    rfl
  · intro limit _ p rest n follows enough
    simp only [length_cons] at enough ⊢
    obtain _ | m := n
    · omega
    -- no operator binds as tightly as the minus in front
    have below : ∀ q sign, precedence (nextKind rest) = some (q, sign) → q < negationLevel :=
      fun q sign found => (precedence_lt _ q sign found).1
    exact ⟨m, by omega, expr_neg m limit _ rest s _ rfl (read _ rest m follows below (by omega))⟩

theorem not_ (loose : level ≤ notLevel) (read : (operand notLevel e).Reads ws) :
    (operand level (.apply (.named "not") [e])).Reads (.sign .not_ :: ws) := by
  obtain ⟨s, means, read⟩ := read.complete
  refine ⟨.not_ s, ?_, ?_⟩
  · simp only [Define.expr, means]
    rfl
  · intro limit _ p rest n follows enough
    simp only [length_cons] at enough ⊢
    obtain _ | m := n
    · omega
    -- what follows may bind as tightly as `level`, but no binary operator stands on the level of `not`
    have below : ∀ q sign, precedence (nextKind rest) = some (q, sign) → q < notLevel := by
      intro q sign found
      have atMost := follows.looser q sign found
      have other := (precedence_lt _ q sign found).2.1
      simp only [notLevel] at loose ⊢
      omega
    exact ⟨m, by omega, expr_not m limit _ rest s _ rfl (read _ rest m follows below (by omega))⟩

theorem binary {r : Expr} (binds : level? sign = some own) (loose : level ≤ own)
    (readLeft : (operand own l).Reads ws) (readRight : (operand (own + 1) r).Reads vs) :
    (operand level (.apply (.named sign.spelling) [l, r])).Reads (ws ++ .sign sign :: vs) := by
  obtain ⟨s, meansLeft, readLeft⟩ := readLeft
  obtain ⟨t, meansRight, readRight⟩ := readRight.complete
  have found := (precedence_sign sign own).1 binds
  refine ⟨.binary sign s t, ?_, ?_⟩
  · have noPower : (decide (sign = .caret) || decide (sign = .dotCaret)) = false := by
      cases sign <;> first | rfl | cases binds
    simp only [Define.expr, noPower, Bool.false_eq_true, if_false, meansLeft, meansRight]
    rfl
  · intro limit within p rest n follows enough
    simp only [length_append, length_cons] at enough ⊢
    rw [tokensFrom_append, append_assoc, tokensFrom_cons, cons_append]
    let behind := ((positionAfter p ws).advance (Word.sign sign).text.toList).advance [' ']
    obtain ⟨m, bound, same⟩ := readLeft limit (by omega) p
      (⟨(Word.sign sign).kind, (Word.sign sign).text, positionAfter p ws⟩ ::
        (tokensFrom behind vs ++ rest)) n (.sign binds _ _) (by omega)
    obtain _ | k := m
    · omega
    -- the right operand ends where an operator of this level or a looser one follows
    have below : ∀ q other, precedence (nextKind rest) = some (q, other) → q < own + 1 :=
      fun q other same => Nat.lt_succ_of_le (Nat.le_trans (follows.looser q other same) loose)
    have right := readRight behind rest k follows below (by omega)
    refine ⟨k, by omega, ?_⟩
    rw [same]
    exact climb_binary k limit _ rest s t own sign _ found (Nat.le_trans within loose) right

theorem alone (read : (operand 0 e).Reads ws) : ∃ s, Define.expr s = .ok e ∧
    ∀ p rest n, Closing rest → 8 * ws.length + 2 ≤ n →
      simpleExpression n (tokensFrom p ws ++ rest) = .ok (s, rest) := by
  obtain ⟨s, means, read⟩ := read.complete
  refine ⟨s, means, ?_⟩
  intro p rest n closing enough
  obtain _ | m := n
  · omega
  have stop : ∀ q sign, precedence (nextKind rest) = some (q, sign) → q < 0 := by
    intro q sign found
    have none := (closing.follows 0).looser q sign found
    have pos := (precedence_lt _ q sign found).2.2
    omega
  exact simpleExpression_expr m _ rest s (read p rest m (closing.follows 0) stop (by omega)) closing.noColon

theorem simple (printed : Printed (.operand 0 e) ws) (read : (operand 0 e).Reads ws) : (whole e).Reads ws := by
  obtain ⟨s, means, read⟩ := read.alone
  refine ⟨s, means, ?_⟩
  intro p rest n closing enough
  obtain _ | m := n
  · omega
  obtain ⟨w, starts, kind⟩ := printed.nextKind_start rfl p rest
  rw [expression_simple m _ (by rw [kind]; exact w.kind_ne_of_opens starts _ (by decide))]
  exact read p rest m closing (by omega)

theorem conditional {last : List Word} (readCondition : (whole c).Reads first)
    (readValue : (whole v).Reads second) (branchWords : Printed (.branches cs values) more)
    (readBranches : (branches cs values).Reads more) (readOtherwise : (whole e).Reads last) :
    (whole (.conditional (c :: cs) (v :: values ++ [e]))).Reads
      (.sign .if_ :: (first ++ .sign .then_ :: (second ++ (more ++ .sign .else_ :: last)))) := by
  obtain ⟨sc, meansCondition, readCondition⟩ := readCondition
  obtain ⟨sv, meansValue, readValue⟩ := readValue
  obtain ⟨bs, meansBranches, readBranches⟩ := readBranches
  obtain ⟨se, meansOtherwise, readOtherwise⟩ := readOtherwise
  refine ⟨.conditional ((sc, sv) :: bs) se, ?_, ?_⟩
  · simp only [Define.expr, Define.branches, meansCondition, meansValue, meansBranches, meansOtherwise]
    rfl
  · intro p rest n closing enough
    simp only [length_append, length_cons] at enough
    obtain _ | m := n
    · omega
    simp only [tokensFrom_cons, tokensFrom_append, append_assoc, cons_append]
    exact expression_conditional m rest sc sv se bs _ _ _ _ _ _ _ rfl rfl rfl (readCondition _ _ m rfl (by omega))
      (readValue _ _ m (branchWords.closing_branches _ _ _ rfl) (by omega))
      (readBranches _ _ _ m m rfl (by omega) (by omega))
      (readOtherwise _ rest m closing (by omega))

theorem noBranch : (branches [] []).Reads [] := by
  refine ⟨[], by simp [Define.branches], ?_⟩
  intro p u rest k m isElse _ enough
  obtain _ | j := m
  · simp at enough
  exact manyWhile_none j (u :: rest) _ _ _ (run_accept_not (u :: rest) .elseif (by simp [isElse]))

theorem branch (readCondition : (whole c).Reads first) (readValue : (whole v).Reads second)
    (branchWords : Printed (.branches cs values) more)
    (readBranches : (branches cs values).Reads more) :
    (branches (c :: cs) (v :: values)).Reads (.sign .elseif :: (first ++ .sign .then_ :: (second ++ more))) := by
  obtain ⟨sc, meansCondition, readCondition⟩ := readCondition
  obtain ⟨sv, meansValue, readValue⟩ := readValue
  obtain ⟨bs, meansBranches, readBranches⟩ := readBranches
  refine ⟨(sc, sv) :: bs, ?_, ?_⟩
  · simp only [Define.branches, meansCondition, meansValue, meansBranches]
    rfl
  · intro p u rest k m isElse deep enough
    simp only [length_append, length_cons] at deep enough
    obtain _ | j := m
    · omega
    obtain _ | i := k
    · omega
    simp only [tokensFrom_cons, tokensFrom_append, append_assoc, cons_append]
    exact manyWhile_next j _ _ _ _ _ _ _ _ (run_accept _ .elseif _ rfl)
      (branch_read i _ _ sc sv _ _ rfl (readCondition _ _ i rfl (by omega))
        (readValue _ _ i (branchWords.closing_branches _ u rest isElse) (by omega)))
      (readBranches _ u rest (i + 1) j isElse (by omega) (by omega))

theorem items (printed : Printed (.whole e) ws) (moreWords : Printed (.moreItems es) vs)
    (readFirst : (whole e).Reads ws) (readMore : (moreItems es).Reads vs) : (items (e :: es)).Reads (ws ++ vs) := by
  obtain ⟨s, means, readFirst⟩ := readFirst
  obtain ⟨as, meansMore, readMore⟩ := readMore
  refine ⟨.positional (.argument (.expr s) :: as), ?_, ?_⟩
  · have all : Define.argumentItems (.argument (.expr s) :: as) = .ok ((e :: es).map some) := by
      simp only [Define.argumentItems, Define.argument, means, meansMore]
      rfl
    simp only [Define.operandsOf, all]
    exact Printed.needExprs_some (e :: es)
  · intro p t rest n isClose enough
    simp only [length_append] at enough
    obtain ⟨m, rfl⟩ : ∃ m, n = m + 2 := ⟨n - 2, by omega⟩
    rw [tokensFrom_append, append_assoc]
    have closing := moreWords.closing_items (positionAfter p ws) t rest isClose
    have first := functionArgument_expr m _ _ s (printed.whole_start p _ _ (by decide))
      (readFirst p _ m closing (by omega))
    refine functionArguments_positional (m + 1) _ _ _ as _ ?_ first
      (readMore _ t rest (m + 1) isClose (by omega))
    obtain ⟨w, us, rfl, _⟩ := printed.start rfl
    have inner := fun v member => (printed.inner v member).2
    cases us with
    | nil =>
      show nextKind (tokensFrom _ vs ++ t :: rest) ≠ _
      obtain same | same := moreWords.nextKind_items (positionAfter p [w]) t rest
      · simp [same]
      · obtain close | close := isClose <;> simp [same, close]
    | cons u us =>
      have other : u ≠ .sign .equals := inner u (by simp)
      cases u with
      | sign t =>
        rintro ⟨⟩
        exact other rfl
      | name | number | string => nofun

theorem noItem : (moreItems []).Reads [] := by
  refine ⟨[], by simp [Define.argumentItems], ?_⟩
  intro p t rest n isClose enough
  obtain _ | m := n
  · simp at enough
  exact moreArguments_none m (t :: rest) (by obtain same | same := isClose <;> simp [same])
    (by obtain same | same := isClose <;> simp [same])

theorem item (printed : Printed (.whole e) ws) (moreWords : Printed (.moreItems es) vs)
    (readNext : (whole e).Reads ws) (readMore : (moreItems es).Reads vs) :
    (moreItems (e :: es)).Reads (.sign .comma :: (ws ++ vs)) := by
  obtain ⟨s, means, readNext⟩ := readNext
  obtain ⟨as, meansMore, readMore⟩ := readMore
  refine ⟨.argument (.expr s) :: as, ?_, ?_⟩
  · simp only [Define.argumentItems, Define.argument, means, meansMore]
    rfl
  · intro p t rest n isClose enough
    simp only [length_append, length_cons] at enough
    obtain ⟨m, rfl⟩ : ∃ m, n = m + 2 := ⟨n - 2, by omega⟩
    simp only [tokensFrom_cons, tokensFrom_append, append_assoc, cons_append]
    exact moreArguments_next (m + 1) _ _ _ as _ _ rfl
      (functionArgument_expr m _ _ s (printed.whole_start _ _ _ (by decide))
        (readNext _ _ m (moreWords.closing_items _ t rest isClose) (by omega)))
      (readMore _ t rest (m + 1) isClose (by omega))

theorem plainPart (s : String) : (part s none).Reads [.name s] := by
  refine ⟨.mk s none, by simp [Define.part], ?_⟩
  intro p rest n other enough
  obtain _ | m := n
  · simp at enough
  exact referencePart_plain m rest _ rfl other

theorem subscriptedPart (read : (subscripts es).Reads ws) :
    (part s (some es)).Reads (.name s :: .sign .leftBracket :: (ws ++ [.sign .rightBracket])) := by
  obtain ⟨xs, means, read⟩ := read
  refine ⟨.mk s (some xs), ?_, ?_⟩
  · simp only [Define.part, means]
    rfl
  · intro p rest n _ enough
    simp only [length_append, length_cons, length_nil] at enough
    obtain _ | m := n
    · omega
    simp only [tokensFrom_cons, tokensFrom_append, tokensFrom_nil, append_assoc, cons_append, nil_append]
    exact referencePart_subscripted m _ rest _ xs rfl rfl (read _ _ _ rest m rfl rfl (by omega))

theorem lastPart (read : (part s groups).Reads ws) (pos : 0 < ws.length) :
    (reference (.mk s [groups] none)).Reads ws := by
  obtain ⟨x, means, read⟩ := read
  refine ⟨x, [], ?_, ?_⟩
  · simp only [Define.reference, means]
    rfl
  · intro p rest n noBracket noDot enough
    obtain ⟨m, rfl⟩ : ∃ m, n = m + 2 := ⟨n - 2, by omega⟩
    exact reference_read (m + 1) _ rest x [] rest (read p rest (m + 1) noBracket (by omega))
      (furtherParts_none m rest noDot)

theorem dotted (readPart : (part s groups).Reads ws) (pos : 0 < ws.length) (readRest : (reference r).Reads vs) :
    (reference (.mk s [groups] (some r))).Reads (ws ++ .sign .dot :: vs) := by
  obtain ⟨x, means, readPart⟩ := readPart
  obtain ⟨y, ys, meansRest, readRest⟩ := readRest
  refine ⟨x, y :: ys, ?_, ?_⟩
  · simp only [Define.reference, means, meansRest]
    rfl
  · intro p rest n noBracket noDot enough
    simp only [length_append, length_cons] at enough
    obtain ⟨m, rfl⟩ : ∃ m, n = m + 2 := ⟨n - 2, by omega⟩
    rw [tokensFrom_append, append_assoc, tokensFrom_cons, cons_append]
    have more := readRest (((positionAfter p ws).advance (Word.sign .dot).text.toList).advance [' '])
      rest (m + 1) noBracket noDot (by omega)
    rw [← furtherParts_next m _ ⟨.terminal .dot, ".", positionAfter p ws⟩ rfl] at more
    exact reference_read (m + 1) _ rest x _ _ (readPart p _ (m + 1) (by simp [Word.kind]) (by omega)) more

theorem index (printed : Printed (.whole e) ws) (read : (whole e).Reads ws) : (subscript e).Reads ws := by
  obtain ⟨s, means, read⟩ := read
  refine ⟨.expr s, ?_, ?_⟩
  · simp only [Define.subscripts, means]
    rfl
  · intro p rest n closing enough
    obtain _ | m := n
    · omega
    exact subscript_expr m _ rest s (printed.whole_start p rest _ (by decide)) (read p rest m closing (by omega))

theorem allOf : (subscript (.slice .absent .absent (.integer 1))).Reads [.sign .colon] := by
  refine ⟨.all, rfl, ?_⟩
  intro p rest n _ enough
  obtain _ | m := n
  · omega
  exact subscript_all m rest _ rfl

theorem subscripts (moreWords : Printed (.moreSubscripts es) vs)
    (readFirst : (subscript e).Reads ws) (readMore : (moreSubscripts es).Reads vs) :
    (subscripts (e :: es)).Reads (ws ++ vs) := by
  obtain ⟨x, means, readFirst⟩ := readFirst
  obtain ⟨xs, meansMore, readMore⟩ := readMore
  refine ⟨x :: xs, Define.subscripts_cons x xs e es means meansMore, ?_⟩
  intro p t u rest n isOpen isClose enough
  simp only [length_append] at enough
  obtain _ | m := n
  · omega
  rw [tokensFrom_append, cons_append, append_assoc]
  exact subscripts_read m _ rest x xs t u _ isOpen isClose
    (readFirst _ _ m (moreWords.closing_subscripts _ u rest isClose) (by omega))
    (readMore _ u rest m m isClose (by omega) (by omega))

theorem noSubscript : (moreSubscripts []).Reads [] := by
  refine ⟨[], by simp [Define.subscripts], ?_⟩
  intro p u rest k m isClose _ enough
  obtain _ | j := m
  · simp at enough
  exact following_none j (u :: rest) .comma _ (by simp [isClose])

theorem nextSubscript (moreWords : Printed (.moreSubscripts es) vs)
    (readNext : (subscript e).Reads ws) (readMore : (moreSubscripts es).Reads vs) :
    (moreSubscripts (e :: es)).Reads (.sign .comma :: (ws ++ vs)) := by
  obtain ⟨x, means, readNext⟩ := readNext
  obtain ⟨xs, meansMore, readMore⟩ := readMore
  refine ⟨x :: xs, Define.subscripts_cons x xs e es means meansMore, ?_⟩
  intro p u rest k m isClose deep enough
  simp only [length_append, length_cons] at deep enough
  obtain _ | j := m
  · omega
  simp only [tokensFrom_cons, tokensFrom_append, append_assoc, cons_append]
  exact following_next j _ _ .comma _ x xs _ _ rfl
    (readNext _ _ k (moreWords.closing_subscripts _ u rest isClose) (by omega))
    (readMore _ u rest k j isClose (by omega) (by omega))

end Phrase.Reads

theorem Printed.reads {phrase : Phrase} {ws : List Word} (printed : Printed phrase ws) : phrase.Reads ws := by
  induction printed with
  | number numeral => exact .number numeral
  | string => exact .string _
  | bool b => exact .bool b
  | ref printed read => exact .ref printed read
  | call function items readFunction readItems => exact .call function items readFunction readItems
  | der items read => exact .der items read
  | array _ read => exact .array read
  | paren inside read => exact .paren inside read
  | bare primary read => exact .bare primary read
  | power isPower left _ readLeft readRight => exact .power isPower left readLeft readRight
  | neg _ read => exact .neg read
  | not_ loose _ read => exact .not_ loose read
  | binary binds loose _ _ readLeft readRight => exact .binary binds loose readLeft readRight
  | simple printed read => exact .simple printed read
  | conditional _ _ branches _ readCondition readValue readBranches readOtherwise =>
    exact .conditional readCondition readValue branches readBranches readOtherwise
  | noBranch => exact .noBranch
  | branch _ _ branches readCondition readValue readBranches =>
    exact .branch readCondition readValue branches readBranches
  | items first more readFirst readMore => exact .items first more readFirst readMore
  | noItem => exact .noItem
  | item next more readNext readMore => exact .item next more readNext readMore
  | plainPart => exact .plainPart _
  | subscriptedPart _ _ read => exact .subscriptedPart read
  | lastPart part read => exact .lastPart read (part.length_pos rfl)
  | dotted part _ readPart readRest => exact .dotted readPart (part.length_pos rfl) readRest
  | index whole read => exact .index whole read
  | allOf => exact .allOf
  | subscripts _ more readFirst readMore => exact .subscripts more readFirst readMore
  | noSubscript => exact .noSubscript
  | nextSubscript _ more readNext readMore => exact .nextSubscript more readNext readMore

end Modelica
