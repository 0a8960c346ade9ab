import Modelica.Proofs.Formula.Reading
import Modelica.Text

set_option autoImplicit false

namespace Modelica.Formula

mutual

def text : Formula → String
  | .number t => t
  | .name s => s
  | .signed s e => signText s ++ " " ++ e.text
  | .binary s l r => l.text ++ " " ++ signText s ++ " " ++ r.text
  | .call f es => f ++ "(" ++ Text.join "," (texts es) ++ ")"
  | .diff e => "(" ++ e.text ++ ").diff(self.t)"

def texts : List Formula → List String
  | [] => []
  | e :: es => e.text :: texts es

end

theorem isWord_of_toList (s : String) (c : Char) (cs : List Char) (same : s.toList = c :: cs)
    (start : isNameStart c = true) (more : cs.all isNameChar = true) : IsWord s :=
  ⟨c, cs, same, start, List.all_eq_true.1 more⟩

theorem lex_diff (rest : List Char) : lex (".diff(self.t)".toList ++ rest) = (lex rest).map (diffTokens ++ ·) := by
  have diff := lex_word "diff" ('(' :: ("self".toList ++ '.' :: ("t".toList ++ ')' :: rest)))
    (isWord_of_toList _ 'd' _ rfl (by decide) (by decide)) (by simp; decide)
  have self := lex_word "self" ('.' :: ("t".toList ++ ')' :: rest))
    (isWord_of_toList _ 's' _ rfl (by decide) (by decide)) (by simp; decide)
  have time := lex_word "t" (')' :: rest) (isWord_of_toList _ 't' _ rfl (by decide) (by decide)) (by simp; decide)
  have start : ".diff(self.t)".toList ++ rest =
      '.' :: ("diff".toList ++ '(' :: ("self".toList ++ '.' :: ("t".toList ++ ')' :: rest))) := rfl
  rw [start, lex_point, diff, lex_opening, self, lex_point, time, lex_closing]
  simp [Function.comp_def, diffTokens]

theorem Ends.not_nameChar {rest : List Char} (ends : Ends rest) (c : Char) (cs : List Char)
    (same : rest = c :: cs) : isNameChar c = false := by
  subst same
  obtain rfl | rfl | rfl := ends <;> decide

mutual

theorem lex_text (e : Formula) (readable : e.Readable) (rest : List Char) (ends : Ends rest) :
    lex (e.text.toList ++ rest) = (lex rest).map (e.toTokens ++ ·) := by
  cases e with
  | number t => simpa [text, toTokens] using lex_decimal t.toList rest readable ends
  | name s => simpa [text, toTokens] using lex_word s rest readable.1 ends.not_nameChar
  | signed s e =>
    have characters : (signed s e).text.toList ++ rest = (signText s).toList ++ ' ' :: (e.text.toList ++ rest) := by
      simp [text]
    rw [characters, lex_sign, lex_text e readable.2 rest ends]
    simp [toTokens, Function.comp_def]
  | binary s l r =>
    have characters : (binary s l r).text.toList ++ rest =
        l.text.toList ++ ' ' :: ((signText s).toList ++ ' ' :: (r.text.toList ++ rest)) := by
      simp [text]
    rw [characters, lex_text l readable.1 _ (ends_blank _), lex_blank, lex_sign, lex_text r readable.2 rest ends]
    simp [toTokens, Function.comp_def]
  | call f es =>
    have characters : (call f es).text.toList ++ rest =
        f.toList ++ '(' :: ((Text.join "," (texts es)).toList ++ ')' :: rest) := by
      simp [text]
    have bracket : ∀ c cs, '(' :: ((Text.join "," (texts es)).toList ++ ')' :: rest) = c :: cs →
        isNameChar c = false := by
      rintro c cs same
      cases same
      decide
    rw [characters, lex_word f _ readable.1.1 bracket, lex_opening, lex_texts es readable.2 rest]
    simp [toTokens, Function.comp_def]
  | diff e =>
    have characters : (diff e).text.toList ++ rest =
        '(' :: (e.text.toList ++ ')' :: (".diff(self.t)".toList ++ rest)) := by
      simp [text]
    rw [characters, lex_opening, lex_text e readable _ (ends_closing _), lex_closing, lex_diff]
    simp [toTokens, Function.comp_def]

theorem lex_texts (es : List Formula) (readable : AllReadable es) (rest : List Char) :
    lex ((Text.join "," (texts es)).toList ++ ')' :: rest) = (lex rest).map (argumentTokens es ++ ·) := by
  match es with
  | [] => simp [texts, Text.join, argumentTokens]
  | [e] =>
    have characters : (Text.join "," (texts [e])).toList ++ ')' :: rest = e.text.toList ++ ')' :: rest := by
      simp [texts, Text.join]
    rw [characters, lex_text e readable.1 _ (ends_closing _), lex_closing]
    simp [argumentTokens, furtherTokens, Function.comp_def]
  | e :: d :: ds =>
    have characters : (Text.join "," (texts (e :: d :: ds))).toList ++ ')' :: rest =
        e.text.toList ++ ',' :: ((Text.join "," (texts (d :: ds))).toList ++ ')' :: rest) := by
      simp [texts, Text.join, String.intercalate_cons_cons]
    rw [characters, lex_text e readable.1 _ (ends_comma _), lex_comma, lex_texts (d :: ds) readable.2 rest]
    simp [argumentTokens, furtherTokens, Function.comp_def]

end

theorem tokens_text (e : Formula) (readable : e.Readable) : tokens e.text = some e.toTokens := by
  simpa [tokens_eq_lex] using lex_text e readable [] trivial

theorem read_text (e : Formula) (readable : e.Readable) : read? e.text = some e.regroup :=
  read_of_tokens e.text e readable (tokens_text e readable)

theorem read_text_eq_self_iff (e : Formula) : read? e.text = some e ↔ e.Grouped ∧ e.Readable := by
  constructor
  · intro read
    have readable := readable_of_read e.text e read
    rw [read_text e readable, Option.some_inj] at read
    exact ⟨(regroup_eq_self_iff e readable).1 read, readable⟩
  · rintro ⟨grouped, readable⟩
    rw [read_text e readable, (regroup_eq_self_iff e readable).2 grouped]

def differenceText (l r : Formula) : String := l.text ++ " - (" ++ r.text ++ ")"

theorem read_differenceText (l r : Formula) (left : l.Readable) (right : r.Readable) :
    read? (differenceText l r) = some (.binary .minus l.regroup r.regroup) := by
  refine read_of_difference _ l r left right ?_
  have characters : (differenceText l r).toList = l.text.toList ++ ' ' ::
      ((signText .minus).toList ++ ' ' :: '(' :: (r.text.toList ++ ')' :: [])) := by
    simp [differenceText, signText]
  rw [tokens_eq_lex, characters, lex_text l left _ (ends_blank _), lex_blank, lex_sign, lex_opening,
    lex_text r right _ (ends_closing _), lex_closing]
  simp

theorem read_differenceText_eq_self_iff (l r : Formula) : read? (differenceText l r) = some (.binary .minus l r) ↔
      (l.Grouped ∧ r.Grouped) ∧ l.Readable ∧ r.Readable := by
  constructor
  · intro read
    have ⟨left, right⟩ : l.Readable ∧ r.Readable := readable_of_read _ _ read
    rw [read_differenceText l r left right] at read
    simp only [Option.some_inj, Formula.binary.injEq, true_and, regroup_eq_self_iff l left,
      regroup_eq_self_iff r right] at read
    exact ⟨read, left, right⟩
  · rintro ⟨⟨groupedL, groupedR⟩, left, right⟩
    rw [read_differenceText l r left right, (regroup_eq_self_iff l left).2 groupedL,
      (regroup_eq_self_iff r right).2 groupedR]

end Modelica.Formula
