import Modelica.Text
import Modelica.Proofs.Token.Rules

set_option autoImplicit false

namespace Modelica

inductive Word where
  | sign (t : Terminal)
  | name (s : String)
  | number (s : String)
  | string (s : String)
deriving DecidableEq

namespace Lexer

def Ends (rest : List Char) : Prop :=
  ∀ c more, rest = c :: more → c = ' '

theorem ends_nil : Ends [] := nofun

theorem ends_blank (cs : List Char) : Ends (' ' :: cs) := by
  intro c more same
  exact (List.cons.inj same).1.symm

theorem le_of_no_blank {cs rest ds : List Char} (ends : Ends rest) (starts : ds <+: cs ++ rest) (none : ' ' ∉ ds) :
    ds.length ≤ cs.length := by
  obtain ⟨more, same⟩ := starts
  obtain ⟨left, rfl, -⟩ | ⟨left, rfl, split⟩ := List.append_eq_append_iff.1 same
  · simp
  · obtain _ | ⟨c, left⟩ := left
    · simp
    · obtain rfl := ends c _ split
      simp at none

theorem isLetter_plain (c : Char) (letter : isLetter c = true) :
    c ≠ '"' ∧ c.isDigit = false ∧ c ≠ '/' ∧ isBlank c = false ∧ c ≠ '\'' := by
  have apart (d : Char) (other : isLetter d = false) : c ≠ d := by
    rintro rfl
    simp [other] at letter
  refine ⟨apart _ (by decide), ?_, apart _ (by decide), ?_, apart _ (by decide)⟩
  · have alpha : c.isAlpha = (decide (c.val ≥ 'A'.val ∧ c.val ≤ 'Z'.val) ||
        decide (c.val ≥ 'a'.val) && decide (c.val ≤ 'z'.val)) := rfl
    simp only [isLetter, alpha, Char.isDigit, Bool.or_eq_true, Bool.and_eq_true, decide_eq_true_eq,
      beq_iff_eq, Bool.and_eq_false_iff, decide_eq_false_iff_not] at letter ⊢
    obtain (⟨low, _⟩ | ⟨low, _⟩) | rfl := letter
    any_goals exact .inr fun high => absurd (UInt32.le_trans low high) (by decide)
    decide
  · simp [isBlank, apart ' ' (by decide), apart '\r' (by decide), apart '\n' (by decide), apart '\t' (by decide)]

theorem isDigit_plain (c : Char) (digit : c.isDigit = true) : c ≠ '"' ∧ c ≠ '\'' ∧ c ≠ '/' ∧ isBlank c = false := by
  have apart (d : Char) (other : d.isDigit = false) : c ≠ d := by
    rintro rfl
    simp [other] at digit
  refine ⟨apart _ (by decide), apart _ (by decide), apart _ (by decide), ?_⟩
  simp [isBlank, apart ' ' (by decide), apart '\r' (by decide), apart '\n' (by decide), apart '\t' (by decide)]

-- The first character tells the kind of a piece that is no keyword or sign.
theorem Starts.unique {k l : PieceKind} {c : Char} (first : Starts k c) (second : Starts l c) :
    k = l ∨ ∃ t, k = .token (.terminal t) ∨ l = .token (.terminal t) := by
  have letter := isLetter_plain c
  have digit := isDigit_plain c
  obtain (t | _ | _ | _ | _ | _) | _ | _ := k <;> obtain (u | _ | _ | _ | _ | _) | _ | _ := l <;>
    simp_all [Starts] <;> obtain _ | rfl := first <;> simp_all [isBlank]

theorem nextPiece_eq {kind : PieceKind} {cs rest : List Char} (spelled : Spelled kind cs)
    (longest : ∀ k ds, Spelled k ds → ds <+: cs ++ rest → ds.length ≤ cs.length)
    (first : ∀ t : Terminal, cs = t.spelling.toList → kind = .token (.terminal t)) :
    nextPiece (cs ++ rest) = (kind, cs.length) := by
  obtain ⟨c, more, rfl, starts⟩ := spelled.starts
  obtain ⟨k, n, next, bound, leads⟩ := nextPiece_leads c (more ++ rest)
  obtain ⟨known, less⟩ := leads.longest kind _ spelled (List.prefix_append _ rest)
  have own := leads.spelled known
  have same : (c :: (more ++ rest)).take n = c :: more :=
    (List.prefix_of_prefix_length_le leads.starts (List.prefix_append (c :: more) rest)
      (longest k _ own leads.starts)).eq_of_length_le less
  have taken : n = (c :: more).length := by rw [← same, List.length_take, Nat.min_eq_left (bound known)]
  rw [same] at own
  rw [List.cons_append, next, taken]
  obtain ⟨_, _, head, begins⟩ := own.starts
  obtain ⟨rfl, rfl⟩ := List.cons.inj head
  obtain rfl | ⟨t, rfl | rfl⟩ := begins.unique starts
  · rfl
  · rw [first t own]
  · rw [leads.first t (same.trans spelled)]

-- Where no keyword or sign can start, only matches of one rule are to be compared.
theorem nextPiece_of_odd {kind : PieceKind} {c : Char} {cs rest : List Char} (spelled : Spelled kind (c :: cs))
    (odd : ∀ t, ¬Starts (.token (.terminal t)) c)
    (longest : ∀ ds, Spelled kind ds → ds <+: c :: cs ++ rest → ds.length ≤ (c :: cs).length) :
    nextPiece (c :: cs ++ rest) = (kind, (c :: cs).length) := by
  have only {k : PieceKind} {ds : List Char} (other : Spelled k ds) (starts : ds <+: c :: cs ++ rest) : k = kind := by
    obtain ⟨_, _, rfl, begins⟩ := other.starts
    obtain ⟨_, _, same, own⟩ := spelled.starts
    obtain ⟨rfl, rfl⟩ := List.cons.inj same
    obtain ⟨rfl, -⟩ := List.cons_prefix_cons.1 starts
    obtain rfl | ⟨t, rfl | rfl⟩ := begins.unique own
    · rfl
    · exact absurd begins (odd t)
    · exact absurd own (odd t)
  refine nextPiece_eq spelled (fun k ds other starts => ?_) fun t same =>
    (only (k := .token (.terminal t)) same (List.prefix_append _ _)).symm
  obtain rfl := only other starts
  exact longest ds other starts

-- Where a recognizer cannot go on, it matches no longer text.
theorem length_le_of_stuck (r : Recognizer) {s t : r.State} {cs rest ds : List Char} (run : r.runFrom s cs = some t)
    (stuck : ∀ c more, rest = c :: more → r.step t c = none) (accepts : r.Accepts s ds) (starts : ds <+: cs ++ rest) :
    ds.length ≤ cs.length := by
  induction cs generalizing s ds with
  | nil =>
    obtain rfl : s = t := Option.some.inj run
    obtain _ | ⟨d, ds⟩ := ds
    · simp
    · obtain ⟨more, split⟩ := starts
      simp [r.accepts_cons, stuck d _ split.symm] at accepts
  | cons c cs ih =>
    obtain _ | ⟨d, ds⟩ := ds
    · simp
    · obtain ⟨rfl, later⟩ := List.cons_prefix_cons.1 starts
      obtain ⟨next, step, accepts⟩ := (r.accepts_cons s d ds).1 accepts
      rw [Recognizer.runFrom, step] at run
      exact Nat.succ_le_succ (ih run accepts later)

theorem nextPiece_of_stuck {k : PieceKind} {r : Recognizer} (member : (k, r) ∈ rules) {t : r.State} {c : Char}
    {cs rest : List Char} (odd : ∀ t, ¬Starts (.token (.terminal t)) c) (run : r.runFrom r.start (c :: cs) = some t)
    (accepts : r.accepts t = true) (stuck : ∀ d more, rest = d :: more → r.step t d = none) :
    nextPiece (c :: cs ++ rest) = (k, (c :: cs).length) :=
  nextPiece_of_odd ((accepts_iff_spelled member _).1 ⟨t, run, accepts⟩) odd fun ds other starts =>
    length_le_of_stuck r run stuck ((accepts_iff_spelled member ds).2 other) starts

theorem spelling_slash (t : Terminal) (cs : List Char) (slash : t.spelling.toList = '/' :: cs) : cs = [] := by
  have all : ∀ t ∈ Terminal.all, t.spelling.toList.head? = some '/' → t.spelling.toList.tail = [] := by
    decide +kernel
  simpa [slash] using all t t.mem_all

-- Behind a word that is no string there is a blank, which belongs to no such word.
theorem longest_of_plain {c : Char} {cs rest ds : List Char} {kind : PieceKind} (ends : Ends rest)
    (plain : isBlank c = false ∧ c.isDigit = false ∧ c ≠ '"' ∧ c ≠ '\'') (slash : c = '/' → cs = []) (spelled : Spelled kind ds)
    (starts : ds <+: c :: cs ++ rest) : ds.length ≤ (c :: cs).length := by
  obtain ⟨d, more, rfl, -⟩ := spelled.starts
  obtain rfl : d = c := (List.cons_prefix_cons.1 starts).1
  refine le_of_no_blank ends starts ?_
  obtain (t | _ | _ | _ | _ | _) | _ | _ := kind
  · obtain ⟨_, _, same, none, _⟩ := spelling_plain t
    rwa [spelled.trans same]
  · obtain ⟨_, _, same, letter, word⟩ | ⟨_, same, _⟩ := spelled <;> obtain ⟨rfl, rfl⟩ := List.cons.inj same
    · simp only [List.mem_cons, not_or]
      exact ⟨(by rintro rfl; cases plain.1), fun inside => absurd (word ' ' inside) (by decide)⟩
    · simp at plain
  · obtain ⟨_, same, _⟩ := spelled
    exact absurd (List.cons.inj same).1 plain.2.2.1
  · obtain ⟨_, _, same, digit⟩ := spelled.starts
    simp [Starts, ← (List.cons.inj same).1, plain.2.1] at digit
  · have second {e : Char} {tail : List Char} (start : d = '/') (same : more = e :: tail) : e = ' ' := by
      obtain ⟨left, split⟩ := (List.cons_prefix_cons.1 starts).2
      rw [slash start, same] at split
      exact ends e _ split.symm
    obtain ⟨_, ⟨same, _⟩ | ⟨same, _⟩⟩ := spelled <;> obtain ⟨start, same⟩ := List.cons.inj same <;> cases second start same
  · cases spelled
  · exact absurd (spelled.2 d (by simp)) (by simp [plain.1])
  · cases spelled

end Lexer

namespace Word

open Lexer

def kind : Word → TokenKind
  | sign t => .terminal t
  | name _ => .ident
  | number _ => .number
  | string _ => .string

def text : Word → String
  | sign t => t.spelling
  | name s => s
  | number s => s
  | string s => "\"" ++ s ++ "\""

-- Every quote in a string follows a backslash, and its last character is none.
def closes (escaped : Bool) : List Char → Bool
  | [] => !escaped
  | c :: cs => (c != '"' || escaped) && closes (c == '\\') cs

def IsName (s : String) : Prop :=
  (∃ c cs, s.toList = c :: cs ∧ isLetter c = true ∧ ∀ d ∈ cs, isWordChar d = true) ∧
    ∀ t : Terminal, t.spelling ≠ s

instance (s : String) : Decidable (IsName s) :=
  decidable_of_iff ((s.toList.head?.any isLetter = true ∧ s.toList.tail.all isWordChar = true) ∧
      Terminal.all.all (fun t => decide (t.spelling ≠ s)) = true) <| by
    refine and_congr ?_ ?_
    · cases s.toList with
      | nil => simp
      | cons c cs => simp [and_assoc]
    · rw [List.all_eq_true]
      exact ⟨fun each t => of_decide_eq_true (each t t.mem_all),
        fun each t _ => decide_eq_true (each t)⟩

def Proper : Word → Prop
  | sign _ => True
  | name s => IsName s
  | number s => Lexer.number.Accepts .start s.toList
  | string s => closes false s.toList = true

theorem closes_cons {c : Char} {cs : List Char} {escaped : Bool} :
    closes escaped (c :: cs) = true ↔ (c = '"' → escaped = true) ∧ closes (c == '\\') cs = true := by
  simp [closes, imp_iff_not_or]

theorem runFrom_of_closes {cs : List Char} {escaped : Bool} (ok : closes escaped cs = true) (s : StringState)
    (here : s = .body escaped ∨ escaped = false ∧ s = .closed true) :
    Lexer.string.runFrom s (cs ++ ['"']) = some (.closed false) := by
  induction cs generalizing escaped s with
  | nil => obtain rfl | ⟨rfl, rfl⟩ := here <;> simp_all [closes, Recognizer.runFrom, Lexer.string]
  | cons c cs ih =>
    rw [closes_cons] at ok
    have next := ih ok.2
    obtain rfl | ⟨rfl, rfl⟩ := here <;> by_cases quoted : c = '"' <;>
      simp_all [Recognizer.runFrom, Lexer.string]

theorem nextPiece_string {body : List Char} (ok : closes false body = true) (rest : List Char) :
    nextPiece ('"' :: (body ++ ['"']) ++ rest) = (.token .string, ('"' :: (body ++ ['"'])).length) :=
  nextPiece_of_stuck (r := Lexer.string) (by simp [rules_eq, open_]) (by simp [Starts])
    (runFrom_of_closes ok _ (.inl rfl)) rfl fun _ _ _ => rfl

-- A string in which quotes follow backslashes only and the last character is none ends at its own quote,
-- whatever comes then. A quoted name ends in front of its quote.
theorem nextPiece_quoted (body rest : List Char) :
    (closes false body = true → nextPiece ('"' :: (body ++ '"' :: rest)) = (.token .string, body.length + 2)) ∧
    (body ≠ [] → Quoted body → nextPiece ('\'' :: (body ++ '\'' :: rest)) = (.token .ident, body.length + 1)) := by
  refine ⟨fun ok => by simpa using nextPiece_string ok rest, fun some quoted => ?_⟩
  obtain ⟨t, run, accepts⟩ := (ident_accepts ('\'' :: body) .start).2 (.inr ⟨body, rfl, some, quoted⟩)
  refine nextPiece_of_stuck (r := ident) (by simp [rules_eq, open_]) (by simp [Starts]) run accepts ?_
  rintro _ _ ⟨⟩
  cases t with
  | word | quoted => rfl
  | start | opened | escape _ => cases accepts

theorem nextPiece_quoted_letter :
    nextPiece ['"', 'a', '\\', '"', 'b', '"', '"'] = (.token .string, 6) ∧
    nextPiece ['\'', 'a', '\\', '\'', 'b', '\'', 'c'] = (.token .ident, 5) :=
  ⟨(nextPiece_quoted ['a', '\\', '"', 'b'] ['"']).1 rfl,
    (nextPiece_quoted ['a', '\\', '\'', 'b'] ['c']).2 (by simp) (.plain rfl (.escape rfl (.plain rfl .nil)))⟩

theorem quote_left_over : nextPiece ['\'', 'a', '\''] = (.token .ident, 2) ∧
    nextPiece ['"', '\\', '\\', '"', ' ', '"', '"'] = (.token .string, 6) := by
  decide +kernel

-- Each word is read as one piece.
theorem nextPiece_word (w : Word) (proper : w.Proper) (rest : List Char) (ends : Ends rest) :
    nextPiece (w.text.toList ++ rest) = (.token w.kind, w.text.toList.length) := by
  cases w with
  | sign t =>
    obtain ⟨c, cs, same, -, plain⟩ := spelling_plain t
    refine nextPiece_eq (rfl : Spelled (.token (.terminal t)) _) ?_ fun u same => by rw [spelling_injective t u same]; rfl
    show ∀ k ds, _ → ds <+: t.spelling.toList ++ rest → _ ≤ t.spelling.toList.length
    rw [same]
    exact fun k ds => longest_of_plain ends plain fun slash => spelling_slash t cs (slash ▸ same)
  | name s =>
    obtain ⟨⟨c, cs, same, letter, word⟩, free⟩ := proper
    obtain ⟨quote, digit, slash, blank, apostrophe⟩ := isLetter_plain c letter
    refine nextPiece_eq (.inl ⟨c, cs, same, letter, word⟩ : Spelled (.token .ident) _) ?_ fun t same =>
      absurd (String.toList_inj.1 same).symm (free t)
    show ∀ k ds, _ → ds <+: s.toList ++ rest → _ ≤ s.toList.length
    rw [same]
    exact fun k ds => longest_of_plain ends ⟨blank, digit, quote, apostrophe⟩ fun same => absurd same slash
  | number s =>
    obtain ⟨c, cs, same, digit⟩ := (accepts_number.1 proper).starts
    obtain ⟨t, run, accepts⟩ := proper
    show nextPiece (s.toList ++ rest) = (_, s.toList.length)
    rw [same] at run ⊢
    refine nextPiece_of_stuck (by simp [rules_eq, open_, kind]) (fun t plain => ?_) run accepts fun d more split => ?_
    · simp [plain.2.1, Starts] at digit
    · rw [ends d more split]
      cases t <;> simp [Lexer.number]
  | string s =>
    have same : (text (string s)).toList = '"' :: (s.toList ++ ['"']) := by simp [text, String.toList_append]
    rw [same]
    exact nextPiece_string proper rest

theorem text_start (w : Word) (proper : w.Proper) : ∃ c cs, w.text.toList = c :: cs ∧ isBlank c = false := by
  cases w with
  | sign t =>
    obtain ⟨c, cs, spelled, _, blank, _⟩ := spelling_plain t
    exact ⟨c, cs, spelled, blank⟩
  | name s =>
    obtain ⟨c, cs, spelled, letter, _⟩ := proper.1
    exact ⟨c, cs, spelled, (isLetter_plain c letter).2.2.2.1⟩
  | number s =>
    obtain ⟨c, cs, spelled, digit⟩ := (accepts_number.1 proper).starts
    exact ⟨c, cs, spelled, (isDigit_plain c digit).2.2.2⟩
  | string s => exact ⟨'"', s.toList ++ ['"'], by simp [text, String.toList_append], by decide⟩

theorem nextPiece_blank (c : Char) (cs : List Char) (other : isBlank c = false) :
    nextPiece (' ' :: c :: cs) = (.blank, 1) := by
  show nextPiece (' ' :: [] ++ c :: cs) = _
  refine nextPiece_of_stuck (r := blank) (by simp [rules_eq, open_]) (by simp [Starts, isBlank]) (t := true) rfl rfl ?_
  rintro _ _ ⟨⟩
  simp [blank, other]

def line (ws : List Word) : String :=
  Text.join " " (ws.map text)

def tokensFrom (p : Position) : List Word → List Token
  | [] => []
  | w :: ws => ⟨w.kind, w.text, p⟩ :: tokensFrom ((p.advance w.text.toList).advance [' ']) ws

def positionAfter (p : Position) (ws : List Word) : Position :=
  ws.foldl (fun p w => (p.advance w.text.toList).advance [' ']) p

section

variable (p : Position)
include p

@[simp] theorem tokensFrom_nil : tokensFrom p [] = [] := rfl

@[simp] theorem tokensFrom_cons (w : Word) (ws : List Word) : tokensFrom p (w :: ws) =
      ⟨w.kind, w.text, p⟩ :: tokensFrom ((p.advance w.text.toList).advance [' ']) ws := rfl

@[simp] theorem tokensFrom_append (ws vs : List Word) :
    tokensFrom p (ws ++ vs) = tokensFrom p ws ++ tokensFrom (positionAfter p ws) vs := by
  induction ws generalizing p with
  | nil => rfl
  | cons w ws ih => simp [ih, positionAfter]

theorem length_tokensFrom (ws : List Word) : (tokensFrom p ws).length = ws.length := by
  induction ws generalizing p with
  | nil => rfl
  | cons w ws ih => simp [ih]

theorem kind_of_mem_tokensFrom (ws : List Word) (t : Token) (member : t ∈ tokensFrom p ws) :
    t.kind ≠ .comment := by
  induction ws generalizing p with
  | nil => simp at member
  | cons w ws ih =>
    obtain rfl | later := List.mem_cons.1 member
    · cases w <;> nofun
    · exact ih _ later

end

theorem cut_piece (fuel : Nat) (p : Position) (kind : PieceKind) (c : Char) (cs rest : List Char)
    (next : nextPiece (c :: cs ++ rest) = (kind, (c :: cs).length)) :
    cut (fuel + 1) p (c :: cs ++ rest) = ⟨kind, c :: cs, p⟩ :: cut fuel (p.advance (c :: cs)) rest := by
  rw [List.cons_append] at next
  rw [List.cons_append, cut, next]
  simp

theorem toList_line_cons_cons (w v : Word) (ws : List Word) :
    (line (w :: v :: ws)).toList = w.text.toList ++ ' ' :: (line (v :: ws)).toList := by
  simp [line, Text.join, String.toList_intercalate]

section

variable (ws : List Word) (proper : ∀ w ∈ ws, w.Proper)
include ws proper

theorem cut_line (fuel : Nat) (p : Position) (enough : (line ws).toList.length ≤ fuel) :
    (cut fuel p (line ws).toList).filterMap Piece.token? = tokensFrom p ws ∧
      ∀ piece ∈ cut fuel p (line ws).toList, piece.kind ≠ .fault := by
  induction ws generalizing fuel p with
  | nil => cases fuel <;> simp [line, Text.join, cut]
  | cons w ws ih =>
    obtain ⟨c, cs, spelled, _⟩ := text_start w (proper w (by simp))
    cases ws with
    | nil =>
      have same : (line [w]).toList = c :: cs ++ [] := by
        simp [line, Text.join, spelled]
      have next := nextPiece_word w (proper w (by simp)) [] ends_nil
      rw [spelled] at next
      obtain ⟨n, rfl⟩ : ∃ n, fuel = n + 1 := ⟨fuel - 1, by simp [same] at enough; omega⟩
      have done : cut n (p.advance (c :: cs)) [] = [] := by cases n <;> rfl
      rw [same, cut_piece n p _ c cs [] next, done]
      simp [Piece.token?, ← spelled, String.ofList_toList]
    | cons v ws =>
      have same := toList_line_cons_cons w v ws
      rw [spelled] at same
      have next := nextPiece_word w (proper w (by simp)) (' ' :: (line (v :: ws)).toList) (ends_blank _)
      rw [spelled] at next
      obtain ⟨d, ds, start, other⟩ := text_start v (proper v (by simp))
      obtain ⟨more, begins⟩ : ∃ more, (line (v :: ws)).toList = d :: more := by
        cases ws with
        | nil => exact ⟨ds, by simp [line, Text.join, start]⟩
        | cons u ws => exact ⟨_, by rw [toList_line_cons_cons, start, List.cons_append]⟩
      obtain ⟨n, rfl⟩ : ∃ n, fuel = n + 2 := ⟨fuel - 2, by simp [same] at enough; omega⟩
      have gap := nextPiece_blank d more other
      rw [← begins] at gap
      have blankPiece := cut_piece n (p.advance (c :: cs)) .blank ' ' [] (line (v :: ws)).toList gap
      have later := ih (fun u member => proper u (List.mem_cons_of_mem w member)) n
        ((p.advance (c :: cs)).advance [' ']) (by simp [same] at enough; omega)
      rw [same, cut_piece (n + 1) p _ c cs _ next]
      rw [List.singleton_append] at blankPiece
      rw [blankPiece, ← spelled]
      rw [← spelled] at later
      refine ⟨?_, ?_⟩
      · have own : Piece.token? ⟨.token w.kind, w.text.toList, p⟩ = some ⟨w.kind, w.text, p⟩ := by
          simp [Piece.token?, String.ofList_toList]
        rw [List.filterMap_cons_some own, List.filterMap_cons_none rfl, later.1, tokensFrom_cons p w]
      · simpa using later.2

theorem tokens_line : ∃ p, tokens (line ws) = tokensFrom .start ws ++ [⟨.eof, "<EOF>", p⟩] :=
  ⟨_, congrArg (· ++ _) (cut_line ws proper _ .start (Nat.le_refl _)).1⟩

theorem faults_line : faults (line ws) = [] := by
  refine List.filterMap_eq_nil_iff.2 fun piece member => ?_
  simp [(cut_line ws proper _ .start (Nat.le_refl _)).2 piece member]

end

end Word

end Modelica
