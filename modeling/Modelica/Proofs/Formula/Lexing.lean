import Modelica.Formula

set_option autoImplicit false

namespace Modelica.Formula

def IsWord (s : String) : Prop :=
  ∃ c cs, s.toList = c :: cs ∧ isNameStart c = true ∧ ∀ d ∈ cs, isNameChar d = true

inductive IsDecimal : List Char → Prop
  | mk (whole part exponent : List Char) (some_digit : whole ≠ [])
      (digits : ∀ c ∈ whole, c.isDigit = true)
      (pointed : part = [] ∨ ∃ ds, part = '.' :: ds ∧ ∀ c ∈ ds, c.isDigit = true)
      (signed : exponent = [] ∨ ∃ sign ds, exponent = 'e' :: sign :: ds ∧
        (sign = '-' ∨ sign = '+') ∧ ∀ c ∈ ds, c.isDigit = true) :
      IsDecimal (whole ++ part ++ exponent)

def Ends : List Char → Prop
  | [] => True
  | c :: _ => c = ' ' ∨ c = ')' ∨ c = ','

variable (c : Char) (cs : List Char)

theorem ends_blank : Ends (' ' :: cs) := .inl rfl

theorem ends_closing : Ends (')' :: cs) := .inr (.inl rfl)

theorem ends_comma : Ends (',' :: cs) := .inr (.inr rfl)

theorem takeWhile_append_ends {p : Char → Bool} (xs rest : List Char)
    (all : ∀ c ∈ xs, p c = true) (stop : ∀ c cs, rest = c :: cs → p c = false) :
    (xs ++ rest).takeWhile p = xs ∧ (xs ++ rest).dropWhile p = rest := by
  rw [List.takeWhile_append_of_pos all, List.dropWhile_append_of_pos all]
  cases rest with
  | nil => simp
  | cons c cs => simp [stop c cs rfl]

def takePart : List Char → List Char × List Char
  | '.' :: r => ('.' :: r.takeWhile Char.isDigit, r.dropWhile Char.isDigit)
  | r => ([], r)

def takeExponent : List Char → List Char × List Char
  | 'e' :: '-' :: r => ('e' :: '-' :: r.takeWhile Char.isDigit, r.dropWhile Char.isDigit)
  | 'e' :: '+' :: r => ('e' :: '+' :: r.takeWhile Char.isDigit, r.dropWhile Char.isDigit)
  | r => ([], r)

theorem takeNumber_eq : takeNumber cs =
      (cs.takeWhile Char.isDigit ++ (takePart (cs.dropWhile Char.isDigit)).1 ++
          (takeExponent (takePart (cs.dropWhile Char.isDigit)).2).1,
        (takeExponent (takePart (cs.dropWhile Char.isDigit)).2).2) :=
  rfl

theorem takePart_append : (takePart cs).1 ++ (takePart cs).2 = cs := by
  fun_cases takePart cs <;> simp [List.takeWhile_append_dropWhile]

theorem takeExponent_append : (takeExponent cs).1 ++ (takeExponent cs).2 = cs := by
  fun_cases takeExponent cs <;> simp [List.takeWhile_append_dropWhile]

theorem takeNumber_append : (takeNumber cs).1 ++ (takeNumber cs).2 = cs := by
  rw [takeNumber_eq, List.append_assoc, takeExponent_append, List.append_assoc, takePart_append,
    List.takeWhile_append_dropWhile]

theorem takeWhile_all (p : Char → Bool) (cs : List Char) : ∀ c ∈ cs.takeWhile p, p c = true :=
  List.all_eq_true.1 List.all_takeWhile

theorem isDecimal_takeNumber (digit : c.isDigit = true) :
    IsDecimal (takeNumber (c :: cs)).1 := by
  rw [takeNumber_eq]
  refine .mk _ _ _ ?_ (takeWhile_all _ _) ?_ ?_
  · simp [digit]
  · fun_cases takePart ((c :: cs).dropWhile Char.isDigit) with
    | case1 r => exact .inr ⟨_, rfl, takeWhile_all _ _⟩
    | case2 => exact .inl rfl
  · fun_cases takeExponent (takePart ((c :: cs).dropWhile Char.isDigit)).2 with
    | case1 r => exact .inr ⟨'-', _, rfl, .inl rfl, takeWhile_all _ _⟩
    | case2 r => exact .inr ⟨'+', _, rfl, .inr rfl, takeWhile_all _ _⟩
    | case3 => exact .inl rfl

def NoDigit (cs : List Char) : Prop := ∀ c rest, cs = c :: rest → c.isDigit = false

theorem Ends.noDigit {rest : List Char} (ends : Ends rest) : NoDigit rest := by
  rintro c cs rfl
  obtain rfl | rfl | rfl := ends <;> decide

theorem takeExponent_of_signed (exponent rest : List Char)
    (signed : exponent = [] ∨ ∃ sign ds, exponent = 'e' :: sign :: ds ∧
      (sign = '-' ∨ sign = '+') ∧ ∀ c ∈ ds, c.isDigit = true) (ends : Ends rest) :
    takeExponent (exponent ++ rest) = (exponent, rest) := by
  obtain rfl | ⟨sign, ds, rfl, either, digits⟩ := signed
  · match rest with
    | [] => rfl
    | c :: _ => obtain rfl | rfl | rfl := ends <;> rfl
  · have ⟨taken, dropped⟩ := takeWhile_append_ends ds rest digits ends.noDigit
    obtain rfl | rfl := either <;> simp [takeExponent, taken, dropped]

theorem takePart_of_pointed (part rest : List Char)
    (pointed : part = [] ∨ ∃ ds, part = '.' :: ds ∧ ∀ c ∈ ds, c.isDigit = true)
    (noDigit : NoDigit rest) (noPoint : ∀ cs, rest ≠ '.' :: cs) : takePart (part ++ rest) = (part, rest) := by
  obtain rfl | ⟨ds, rfl, digits⟩ := pointed
  · rw [List.nil_append, takePart]
    exact noPoint
  · have ⟨taken, dropped⟩ := takeWhile_append_ends ds rest digits noDigit
    simp [takePart, taken, dropped]

theorem takeNumber_of_isDecimal (cs rest : List Char) (decimal : IsDecimal cs)
    (ends : Ends rest) : takeNumber (cs ++ rest) = (cs, rest) := by
  obtain ⟨whole, part, exponent, _, digits, pointed, signed⟩ := decimal
  have behind : NoDigit (exponent ++ rest) ∧ ∀ cs, exponent ++ rest ≠ '.' :: cs := by
    obtain rfl | ⟨sign, ds, rfl, _, _⟩ := signed
    · refine ⟨ends.noDigit, ?_⟩
      rintro cs rfl
      obtain h | h | h := ends <;> cases h
    · constructor
      · rintro c cs same
        cases same
        decide
      · simp
  have middle : NoDigit (part ++ (exponent ++ rest)) := by
    obtain rfl | ⟨ds, rfl, _⟩ := pointed
    · exact behind.1
    · rintro c cs same
      cases same
      decide
  have ⟨taken, dropped⟩ := takeWhile_append_ends whole _ digits middle
  simp only [takeNumber_eq, List.append_assoc, taken, dropped, takePart_of_pointed part _ pointed behind.1 behind.2,
    takeExponent_of_signed exponent rest signed ends]

def firstToken (c : Char) (cs : List Char) : Option (List Token × List Char) :=
  if c = ' ' then some ([], cs)
  else if c.isDigit then
    some ([.number (String.ofList (takeNumber (c :: cs)).1)], (takeNumber (c :: cs)).2)
  else if isNameStart c then
    some ([.name (String.ofList ((c :: cs).takeWhile isNameChar))],
      (c :: cs).dropWhile isNameChar)
  else
    match c, cs with
    | '*', '*' :: rest => some ([.sign .power], rest)
    | '*', rest => some ([.sign .times], rest)
    | '/', '/' :: _ => none
    | '/', rest => some ([.sign .over], rest)
    | '+', rest => some ([.sign .plus], rest)
    | '-', rest => some ([.sign .minus], rest)
    | '(', rest => some ([.opening], rest)
    | ')', rest => some ([.closing], rest)
    | ',', rest => some ([.comma], rest)
    | '.', rest => some ([.point], rest)
    | _, _ => none

theorem tokensFrom_succ (fuel : Nat) (c : Char) (cs : List Char) : tokensFrom (fuel + 1) (c :: cs) =
      (firstToken c cs).bind fun (ts, rest) => (tokensFrom fuel rest).map (ts ++ ·) := by
  conv => lhs; unfold tokensFrom
  unfold firstToken
  split
  · simp
  split
  · simp
  split
  · simp
  split <;> simp

theorem dropWhile_head (p : Char → Bool) (c : Char) (cs : List Char) (holds : p c = true) :
    ((c :: cs).dropWhile p).length ≤ cs.length := by
  simp only [List.dropWhile_cons_of_pos holds]
  exact (List.dropWhile_suffix p).length_le

theorem isNameChar_of_isNameStart (start : isNameStart c = true) : isNameChar c = true := by
  simp only [isNameStart, Bool.or_eq_true] at start
  simp only [isNameChar, Char.isAlphanum, Bool.or_eq_true]
  exact start.imp_left .inl

def Token.Cut : Token → Prop
  | .number t => IsDecimal t.toList
  | .name s => IsWord s
  | _ => True

theorem firstToken_spec (ts : List Token) (rest : List Char)
    (first : firstToken c cs = some (ts, rest)) : rest.length ≤ cs.length ∧ ∀ t ∈ ts, t.Cut := by
  unfold firstToken at first
  split at first
  · simp_all
  split at first
  · next digit =>
    obtain ⟨rfl, rfl⟩ := by simpa using first
    have parts := congrArg List.length (takeNumber_append (c :: cs))
    obtain ⟨d, ds, same⟩ : ∃ d ds, (takeNumber (c :: cs)).1 = d :: ds := by
      rw [takeNumber_eq]
      simp [digit]
    simp only [same, List.cons_append, List.length_cons, List.length_append] at parts
    exact ⟨by omega, by simpa [Token.Cut] using isDecimal_takeNumber c cs digit⟩
  split at first
  · next start =>
    obtain ⟨rfl, rfl⟩ := by simpa using first
    have head := isNameChar_of_isNameStart c start
    refine ⟨dropWhile_head _ _ _ head, ?_⟩
    simp only [List.mem_singleton, forall_eq, Token.Cut]
    exact ⟨c, cs.takeWhile isNameChar, by simp [head], start, takeWhile_all _ _⟩
  · split at first <;> simp at first <;> obtain ⟨rfl, rfl⟩ := first <;> simp [Token.Cut]

theorem tokensFrom_congr (m n : Nat) (cs : List Char) (left : cs.length ≤ m)
    (right : cs.length ≤ n) : tokensFrom m cs = tokensFrom n cs := by
  induction m generalizing n cs with
  | zero =>
    have empty : cs = [] := List.eq_nil_of_length_eq_zero (by omega)
    simp [empty, tokensFrom]
  | succ m ih =>
    cases cs with
    | nil => simp [tokensFrom]
    | cons c cs =>
      simp only [List.length_cons] at left right
      obtain _ | k := n
      · omega
      rw [tokensFrom_succ, tokensFrom_succ]
      cases first : firstToken c cs with
      | none => rfl
      | some found =>
        have ⟨shorter, _⟩ := firstToken_spec c cs found.1 found.2 first
        simp only [Option.bind_some]
        rw [ih k found.2 (by omega) (by omega)]

def lex (cs : List Char) : Option (List Token) := tokensFrom cs.length cs

theorem tokens_eq_lex (text : String) : tokens text = lex text.toList := rfl

theorem lex_cons :
    lex (c :: cs) = (firstToken c cs).bind fun (ts, rest) => (lex rest).map (ts ++ ·) := by
  rw [lex, List.length_cons, tokensFrom_succ]
  cases first : firstToken c cs with
  | none => rfl
  | some found =>
    have ⟨shorter, _⟩ := firstToken_spec c cs found.1 found.2 first
    simp only [Option.bind_some, lex, tokensFrom_congr cs.length _ found.2 shorter (Nat.le_refl _)]

theorem lex_of_firstToken {c : Char} {cs rest : List Char} {t : Token}
    (first : firstToken c cs = some ([t], rest)) : lex (c :: cs) = (lex rest).map (t :: ·) := by
  rw [lex_cons, first]
  rfl

@[simp] theorem lex_nil : lex [] = some [] := rfl

@[simp] theorem lex_blank : lex (' ' :: cs) = lex cs := by
  rw [lex_cons, show firstToken ' ' cs = some ([], cs) from rfl]
  exact Option.map_id'

@[simp] theorem lex_opening : lex ('(' :: cs) = (lex cs).map (.opening :: ·) := lex_of_firstToken rfl

@[simp] theorem lex_closing : lex (')' :: cs) = (lex cs).map (.closing :: ·) := lex_of_firstToken rfl

@[simp] theorem lex_comma : lex (',' :: cs) = (lex cs).map (.comma :: ·) := lex_of_firstToken rfl

@[simp] theorem lex_point : lex ('.' :: cs) = (lex cs).map (.point :: ·) := lex_of_firstToken rfl

def signText : FormulaSign → String
  | .plus => "+"
  | .minus => "-"
  | .times => "*"
  | .over => "/"
  | .power => "**"

theorem lex_sign (s : FormulaSign) (cs : List Char) :
    lex ((signText s).toList ++ ' ' :: cs) = (lex cs).map (.sign s :: ·) := by
  rw [← lex_blank cs]
  cases s
  · exact lex_of_firstToken (c := '+') rfl
  · exact lex_of_firstToken (c := '-') rfl
  · exact lex_of_firstToken (c := '*') rfl
  · exact lex_of_firstToken (c := '/') rfl
  · have power : firstToken '*' ('*' :: ' ' :: cs) = some ([.sign .power], ' ' :: cs) := rfl
    exact lex_of_firstToken power

theorem not_isDigit_of_isNameStart (start : isNameStart c = true) : c.isDigit = false ∧ c ≠ ' ' := by
  have alpha : c.isAlpha = (decide (c.val ≥ 'A'.val ∧ c.val ≤ 'Z'.val) ||
      decide (c.val ≥ 'a'.val) && decide (c.val ≤ 'z'.val)) := rfl
  simp only [isNameStart, alpha, Bool.or_eq_true, Bool.and_eq_true, decide_eq_true_eq, ge_iff_le,
    UInt32.le_iff_toNat_le] at start
  constructor
  · simp only [Char.isDigit, Bool.and_eq_false_iff, decide_eq_false_iff_not, ge_iff_le,
      UInt32.le_iff_toNat_le, UInt32.reduceToNat, Char.reduceVal] at start ⊢
    obtain (_ | _) | rfl := start
    · omega
    · omega
    · decide
  · rintro rfl
    revert start
    decide

theorem lex_word (s : String) (rest : List Char) (word : IsWord s)
    (stop : ∀ c cs, rest = c :: cs → isNameChar c = false) :
    lex (s.toList ++ rest) = (lex rest).map (.name s :: ·) := by
  obtain ⟨c, cs, same, start, more⟩ := word
  have all : ∀ d ∈ s.toList, isNameChar d = true := by
    simp only [same, List.mem_cons, forall_eq_or_imp]
    exact ⟨isNameChar_of_isNameStart c start, more⟩
  have ⟨taken, dropped⟩ := takeWhile_append_ends s.toList rest all stop
  have ⟨noDigit, noBlank⟩ := not_isDigit_of_isNameStart c start
  rw [same, List.cons_append] at taken dropped ⊢
  simp only [lex_cons, firstToken, noBlank, noDigit, start, taken, dropped, if_false, if_true,
    Bool.false_eq_true, Option.bind_some, ← same, String.ofList_toList, List.cons_append,
    List.nil_append]

theorem lex_decimal (cs rest : List Char) (decimal : IsDecimal cs) (ends : Ends rest) :
    lex (cs ++ rest) = (lex rest).map (.number (String.ofList cs) :: ·) := by
  have whole := takeNumber_of_isDecimal cs rest decimal ends
  obtain ⟨c, more, same, digit⟩ : ∃ c more, cs = c :: more ∧ c.isDigit = true := by
    obtain ⟨whole, part, exponent, someDigit, digits, _, _⟩ := decimal
    obtain ⟨c, more, rfl⟩ := List.exists_cons_of_ne_nil someDigit
    exact ⟨c, more ++ part ++ exponent, by simp, digits c (by simp)⟩
  have noBlank : c ≠ ' ' := by
    rintro rfl
    simp [Char.isDigit] at digit
  rw [same, List.cons_append] at whole ⊢
  simp [lex_cons, firstToken, noBlank, digit, whole]

theorem cut_of_tokensFrom (fuel : Nat) (cs : List Char) (ts : List Token)
    (lexed : tokensFrom fuel cs = some ts) : ∀ t ∈ ts, t.Cut := by
  induction fuel generalizing cs ts with
  | zero =>
    cases cs with
    | nil => simp_all [tokensFrom]
    | cons c cs => simp [tokensFrom] at lexed
  | succ fuel ih =>
    cases cs with
    | nil => simp_all [tokensFrom]
    | cons c cs =>
      rw [tokensFrom_succ] at lexed
      obtain ⟨⟨first, rest⟩, cut, lexed⟩ := Option.bind_eq_some_iff.1 lexed
      obtain ⟨others, behind, rfl⟩ := Option.map_eq_some_iff.1 lexed
      intro t member
      obtain here | later := List.mem_append.1 member
      · exact (firstToken_spec c cs first rest cut).2 t here
      · exact ih rest others behind t later

end Modelica.Formula
