import Modelica.Token.Lexer
import Mathlib.Data.List.Induction
import Mathlib.Tactic.MkIffOfInductiveProp

set_option autoImplicit false

namespace Modelica.Lexer

namespace Recognizer

def runFrom (r : Recognizer) (s : r.State) : List Char → Option r.State
  | [] => some s
  | c :: cs => (r.step s c).bind fun t => r.runFrom t cs

def Accepts (r : Recognizer) (s : r.State) (cs : List Char) : Prop :=
  ∃ t, r.runFrom s cs = some t ∧ r.accepts t = true

variable (r : Recognizer)

theorem accepts_nil (s : r.State) : r.Accepts s [] ↔ r.accepts s = true := by
  simp [Accepts, runFrom]

theorem accepts_cons (s : r.State) (c : Char) (cs : List Char) :
    r.Accepts s (c :: cs) ↔ ∃ t, r.step s c = some t ∧ r.Accepts t cs := by
  cases step : r.step s c <;> simp [Accepts, runFrom, step]

-- In each state that it can be in, a recognizer accepts what the text may go on with there.
theorem accepts_iff (sound : r.State → Prop) (rest : r.State → List Char → Prop)
    (stop : ∀ s, sound s → (rest s [] ↔ r.accepts s = true))
    (read : ∀ s c cs, sound s →
      (rest s (c :: cs) ↔ (r.step s c).elim False (rest · cs)) ∧ ∀ t, r.step s c = some t → sound t)
    (s : r.State) (cs : List Char) (here : sound s) : r.Accepts s cs ↔ rest s cs := by
  induction cs generalizing s with
  | nil => rw [accepts_nil, stop s here]
  | cons c cs ih =>
    obtain ⟨same, next⟩ := read s c cs here
    rw [same, accepts_cons]
    cases step : r.step s c with
    | none => simp
    | some t => simpa using ih t (next t step)

-- The match that is found is one, and none is longer.
theorem matched_spec (s : r.State) (cs : List Char) :
    (∀ n, (r.reachFrom s cs).matched = some n → n ≤ cs.length ∧ r.Accepts s (cs.take n)) ∧
      ∀ ds, ds <+: cs → r.Accepts s ds → ∃ n, (r.reachFrom s cs).matched = some n ∧ ds.length ≤ n := by
  induction cs generalizing s with
  | nil => by_cases here : r.accepts s = true <;> simp [reachFrom, here, accepts_nil]
  | cons c cs ih =>
    have each (p : List Char → Prop) : (∀ ds, ds <+: c :: cs → p ds) ↔ p [] ∧ ∀ ds, ds <+: cs → p (c :: ds) := by
      grind [List.prefix_cons_iff]
    rw [each]
    cases step : r.step s c with
    | none => by_cases here : r.accepts s = true <;> simp [reachFrom, step, here, accepts_nil, accepts_cons]
    | some t =>
      have ih := ih t
      cases later : (r.reachFrom t cs).matched <;> by_cases here : r.accepts s = true <;>
        simp_all [reachFrom, accepts_nil, accepts_cons]

end Recognizer

def isWordChar (c : Char) : Bool :=
  isLetter c || c.isDigit

@[mk_iff]
inductive Quoted : List Char → Prop
  | nil : Quoted []
  | plain {c : Char} {cs : List Char} (plain : isQuotable c = true) (rest : Quoted cs) : Quoted (c :: cs)
  | escape {c : Char} {cs : List Char} (escape : isEscape c = true) (rest : Quoted cs) : Quoted ('\\' :: c :: cs)

@[mk_iff]
inductive StringRest : List Char → Prop
  | close : StringRest ['"']
  | escaped {cs : List Char} (rest : StringRest cs) : StringRest ('\\' :: '"' :: cs)
  | plain {c : Char} {cs : List Char} (other : c ≠ '"') (rest : StringRest cs) : StringRest (c :: cs)

def IsDigits (cs : List Char) : Prop :=
  cs ≠ [] ∧ ∀ c ∈ cs, c.isDigit = true

def IsSign (cs : List Char) : Prop :=
  cs = [] ∨ cs = ['+'] ∨ cs = ['-']

-- What follows the first digits of a number: points, each with a number or none, and an exponent.
inductive NumberRest : List Char → Prop
  | nil : NumberRest []
  | exponent {e : Char} {sign ds : List Char} (mark : e = 'e' ∨ e = 'E') (signed : IsSign sign)
    (digits : IsDigits ds) : NumberRest (e :: sign ++ ds)
  | point {cs : List Char} (rest : NumberRest cs) : NumberRest ('.' :: cs)
  | fraction {ds own cs : List Char} (digits : IsDigits ds) (inner : NumberRest own) (rest : NumberRest cs) :
    NumberRest ('.' :: ds ++ own ++ cs)

@[mk_iff]
inductive UpTo (mark : List Char) : List Char → Prop
  | stop : UpTo mark mark
  | char {c : Char} {cs : List Char} (before : ¬mark <+: c :: cs) (rest : UpTo mark cs) : UpTo mark (c :: cs)

-- The texts that the rule for a kind of piece matches.
def Spelled : PieceKind → List Char → Prop
  | .token (.terminal t), cs => cs = t.spelling.toList
  | .token .ident, cs => (∃ c more, cs = c :: more ∧ isLetter c = true ∧ ∀ d ∈ more, isWordChar d = true) ∨
      ∃ body, cs = '\'' :: body ∧ body ≠ [] ∧ Quoted body
  | .token .string, cs => ∃ rest, cs = '"' :: rest ∧ StringRest rest
  | .token .number, cs => ∃ ds rest, cs = ds ++ rest ∧ IsDigits ds ∧ NumberRest rest
  | .token .comment, cs =>
    ∃ rest, cs = '/' :: '/' :: rest ∧ UpTo ['\n'] rest ∨ cs = '/' :: '*' :: rest ∧ UpTo ['*', '/'] rest
  | .blank, cs => cs ≠ [] ∧ ∀ c ∈ cs, isBlank c = true
  | .token .eof, _ | .fault, _ => False

section Rules

variable (c : Char) (cs : List Char)

theorem literal_accepts (word left : List Char) : (literal word).Accepts left cs ↔ cs = left := by
  refine (literal word).accepts_iff (fun _ => True) (fun left cs => cs = left) (fun s _ => ?_) (fun s c cs _ => ?_)
    left cs trivial
  · cases s <;> simp [literal]
  · obtain _ | ⟨d, ds⟩ := s
    · simp [literal]
    · by_cases same : c = d <;> simp [literal, same]

def identFrom : IdentState → List Char → Prop
  | .start, cs => Spelled (.token .ident) cs
  | .word, cs => ∀ c ∈ cs, isWordChar c = true
  | .opened, cs => cs ≠ [] ∧ Quoted cs
  | .quoted, cs => Quoted cs
  | .escape _, cs => ∃ c more, cs = c :: more ∧ isEscape c = true ∧ Quoted more

theorem quoted_cons : Quoted (c :: cs) ↔
    isQuotable c = true ∧ Quoted cs ∨ c = '\\' ∧ ∃ d more, cs = d :: more ∧ isEscape d = true ∧ Quoted more := by
  rw [quoted_iff]
  grind

theorem ident_accepts (s : IdentState) : ident.Accepts s cs ↔ identFrom s cs := by
  have quote : isLetter '\'' = false := by decide
  have escape : isQuotable '\\' = false := by decide
  refine ident.accepts_iff (fun _ => True) identFrom (fun s _ => ?_) (fun s c cs _ => ?_) s cs trivial
  · cases s <;> simp [identFrom, Spelled, ident, Quoted.nil]
  · cases s <;> simp only [identFrom, Spelled, ident, quoted_cons, isWordChar] <;> grind [Option.elim]

def stringFrom : StringState → List Char → Prop
  | .start, cs => Spelled (.token .string) cs
  | .body escaped, cs => StringRest (if escaped then '\\' :: cs else cs)
  | .closed escaped, cs => cs = [] ∨ escaped = true ∧ StringRest cs

theorem stringRest_nil : ¬StringRest [] := by
  rintro ⟨⟩

theorem stringRest_cons : StringRest (c :: cs) ↔
    if c = '"' then cs = [] else StringRest cs ∨ c = '\\' ∧ ∃ more, cs = '"' :: more ∧ StringRest more := by
  rw [stringRest_iff]
  grind

theorem string_accepts (s : StringState) : string.Accepts s cs ↔ stringFrom s cs := by
  refine string.accepts_iff (fun _ => True) stringFrom (fun s _ => ?_) (fun s c cs _ => ?_) s cs trivial
  · obtain _ | (_ | _) | (_ | _) := s <;> simp [stringFrom, Spelled, string, stringRest_nil, stringRest_cons]
  · obtain _ | (_ | _) | (_ | _) := s <;> by_cases quote : c = '"' <;> by_cases escape : c = '\\' <;>
      simp [stringFrom, Spelled, string, stringRest_cons, quote, escape, or_comm]

def commentFrom : CommentState → List Char → Prop
  | .start, cs => Spelled (.token .comment) cs
  | .slash, cs => ∃ rest, cs = '/' :: rest ∧ UpTo ['\n'] rest ∨ cs = '*' :: rest ∧ UpTo ['*', '/'] rest
  | .line, cs => UpTo ['\n'] cs
  | .block, cs => UpTo ['*', '/'] cs
  | .star, cs => UpTo ['*', '/'] ('*' :: cs)
  | .done, cs => cs = []

theorem upTo_cons (mark : List Char) : UpTo mark (c :: cs) ↔ c :: cs = mark ∨ ¬mark <+: c :: cs ∧ UpTo mark cs := by
  rw [upTo_iff]
  grind

theorem comment_accepts (s : CommentState) : comment.Accepts s cs ↔ commentFrom s cs := by
  refine comment.accepts_iff (fun _ => True) commentFrom (fun s _ => ?_) (fun s c cs _ => ?_) s cs trivial
  · cases s <;> simp [commentFrom, Spelled, comment, upTo_iff _ [], upTo_cons]
  · cases s <;> simp only [commentFrom, Spelled, comment, upTo_cons] <;> grind [Option.elim]

theorem blank_accepts (seen : Bool) : blank.Accepts seen cs ↔ (seen = true ∨ cs ≠ []) ∧ ∀ c ∈ cs, isBlank c = true := by
  refine blank.accepts_iff (fun _ => True) (fun seen cs => (seen = true ∨ cs ≠ []) ∧ ∀ c ∈ cs, isBlank c = true)
    (fun s _ => ?_) (fun s c cs _ => ?_) seen cs trivial
  · show (s = true ∨ [] ≠ []) ∧ _ ↔ s = true
    simp
  · by_cases here : isBlank c = true <;> simp [blank, here]

inductive Nested : Nat → List Char → Prop
  | nil : Nested 0 []
  | cons {n : Nat} {own cs : List Char} (inner : NumberRest own) (rest : Nested n cs) : Nested (n + 1) (own ++ cs)

def Digits (full : Bool) (n : Nat) (cs : List Char) : Prop :=
  ∃ ds rest, cs = ds ++ rest ∧ (IsDigits ds ∨ full = false ∧ ds = []) ∧ Nested n rest

def Signed (n : Nat) (cs : List Char) : Prop :=
  ∃ sign more, cs = sign ++ more ∧ IsSign sign ∧ Digits true n more

theorem nested_nil (n : Nat) : Nested n [] := by
  induction n with
  | zero => exact .nil
  | succ n ih => exact .cons .nil ih

theorem nested_cons (n : Nat) : Nested n (c :: cs) ↔ ∃ m, n = m + 1 ∧
    (c = '.' ∧ (Nested n cs ∨ Digits true (n + 1) cs) ∨ (c = 'e' ∨ c = 'E') ∧ Signed m cs) := by
  have wider {n : Nat} {cs : List Char} (digits : Digits true n cs) : Digits true (n + 1) cs := by
    obtain ⟨ds, rest, split, all, nested⟩ := digits
    exact ⟨ds, rest, split, all, .cons .nil nested⟩
  refine ⟨fun nested => ?_, ?_⟩
  · induction n with
    | zero => cases nested
    | succ n ih =>
      refine ⟨n, rfl, ?_⟩
      generalize same : c :: cs = text at nested
      obtain _ | ⟨_ | ⟨mark, signed, digits⟩ | rest | ⟨digits, inner, outer⟩, later⟩ := nested
      · -- The innermost number ends here, and the one around it goes on.
        subst same
        obtain ⟨m, rfl, ⟨point, more⟩ | ⟨mark, sign, more, split, signed, digits⟩⟩ := ih later
        · exact .inl ⟨point, more.imp (.cons .nil) wider⟩
        · exact .inr ⟨mark, sign, more, split, signed, wider digits⟩
      all_goals obtain ⟨rfl, rfl⟩ := List.cons.inj same
      · exact .inr ⟨mark, _, _, List.append_assoc .., signed, _, _, rfl, .inl digits, later⟩
      · exact .inl ⟨rfl, .inl (.cons rest later)⟩
      · refine .inl ⟨rfl, .inr ⟨_, _, ?_, .inl digits, .cons inner (.cons outer later)⟩⟩
        simp
  · rintro ⟨m, rfl, ⟨rfl, nested | ⟨ds, rest, rfl, digits | ⟨⟨⟩, _⟩, nested⟩⟩ |
      ⟨mark, sign, more, rfl, signed, ds, rest, rfl, digits | ⟨⟨⟩, _⟩, nested⟩⟩
    · obtain _ | ⟨inner, rest⟩ := nested
      exact .cons (.point inner) rest
    · obtain _ | ⟨inner, _ | ⟨outer, nested⟩⟩ := nested
      simpa using Nested.cons (.fraction digits inner outer) nested
    · simpa using Nested.cons (.exponent mark signed digits) nested

theorem digits_nil (full : Bool) (n : Nat) : Digits full n [] ↔ full = false := by
  simp only [Digits, List.nil_eq, List.append_eq_nil_iff]
  grind [IsDigits, nested_nil]

theorem digits_cons (full : Bool) (n : Nat) : Digits full n (c :: cs) ↔
    c.isDigit = true ∧ Digits false n cs ∨ full = false ∧ Nested n (c :: cs) := by
  refine ⟨?_, ?_⟩
  · rintro ⟨_ | ⟨d, ds⟩, rest, split, digits, nested⟩
    · exact .inr ⟨by simpa [IsDigits] using digits, by rwa [split]⟩
    · obtain ⟨rfl, rfl⟩ := List.cons.inj split
      exact .inl ⟨by grind [IsDigits], ds, rest, rfl, by grind [IsDigits], nested⟩
  · rintro (⟨digit, ds, rest, rfl, digits, nested⟩ | ⟨none, nested⟩)
    · exact ⟨c :: ds, rest, rfl, by grind [IsDigits], nested⟩
    · exact ⟨[], _, rfl, .inr ⟨none, rfl⟩, nested⟩

theorem signed_iff (n : Nat) : Signed n cs ↔
    Digits true n cs ∨ ∃ c more, cs = c :: more ∧ (c = '+' ∨ c = '-') ∧ Digits true n more := by
  simp [Signed, IsSign, or_and_right]
  grind

def numberFrom : NumberState → List Char → Prop
  | .start, cs => Digits true 1 cs
  | .digits n, cs | .power n, cs => Digits false n cs
  | .point n, cs => Nested n cs ∨ Digits true (n + 1) cs
  | .mark n, cs => Signed (n - 1) cs
  | .sign n, cs => Digits true (n - 1) cs

def Opened : NumberState → Prop
  | .digits n | .point n | .mark n | .sign n => 0 < n
  | .start | .power _ => True

theorem number_accepts (s : NumberState) (opened : Opened s) : number.Accepts s cs ↔ numberFrom s cs := by
  refine number.accepts_iff Opened numberFrom (fun s opened => ?_) (fun s c cs opened => ?_) s cs opened
  · cases s <;> simp [numberFrom, number, signed_iff, digits_nil, nested_nil]
  · have apart (d : Char) (other : d.isDigit = false) (digit : c.isDigit = true) : c ≠ d := by
      rintro rfl
      simp [other] at digit
    have point := apart '.' (by decide)
    have lower := apart 'e' (by decide)
    have upper := apart 'E' (by decide)
    have plus := apart '+' (by decide)
    have minus := apart '-' (by decide)
    obtain _ | (_ | n) | (_ | n) | (_ | n) | (_ | n) | (_ | n) := s <;> simp only [Opened, Nat.lt_irrefl] at opened <;>
      by_cases digit : c.isDigit = true <;>
      simp_all [numberFrom, number, digits_cons, nested_cons, signed_iff, Opened] <;> grind

theorem accepts_number {cs : List Char} : number.Accepts .start cs ↔ Spelled (.token .number) cs := by
  refine (number_accepts cs .start trivial).trans ⟨?_, ?_⟩
  · rintro ⟨ds, rest, split, digits | ⟨⟨⟩, -⟩, _ | ⟨inner, _ | _⟩⟩
    exact ⟨ds, _, by simpa using split, digits, inner⟩
  · rintro ⟨ds, rest, split, digits, inner⟩
    exact ⟨ds, rest, split, .inl digits, by simpa using Nested.cons inner .nil⟩

end Rules

def fixed (t : Terminal) : PieceKind × Recognizer :=
  (.token (.terminal t), literal t.spelling.toList)

def open_ : List (PieceKind × Recognizer) :=
  [(.token .ident, ident), (.token .string, string), (.token .number, number), (.token .comment, comment), (.blank, blank)]

theorem rules_eq : rules = Terminal.all.map fixed ++ open_ := rfl

theorem accepts_iff_spelled {rule : PieceKind × Recognizer} (member : rule ∈ rules) (cs : List Char) :
    rule.2.Accepts rule.2.start cs ↔ Spelled rule.1 cs := by
  simp only [rules_eq, List.mem_append, List.mem_map, open_, List.mem_cons, List.not_mem_nil, or_false] at member
  obtain ⟨t, _, rfl⟩ | rfl | rfl | rfl | rfl | rfl := member
  · exact literal_accepts _ _ _
  · exact ident_accepts _ _
  · exact string_accepts _ _
  · exact accepts_number
  · exact comment_accepts _ _
  · exact (blank_accepts _ _).trans (by simp [blank, Spelled])

theorem exists_rule {kind : PieceKind} {cs : List Char} (spelled : Spelled kind cs) : ∃ r, (kind, r) ∈ rules := by
  simp only [rules_eq, List.mem_append, open_, List.mem_cons, List.not_mem_nil, or_false, Prod.mk.injEq]
  obtain (t | _ | _ | _ | _ | _) | _ | _ := kind
  · exact ⟨_, .inl (List.mem_map_of_mem t.mem_all)⟩
  all_goals simp [Spelled] at spelled ⊢

def PieceKind.Fixed (kind : PieceKind) : Prop :=
  ∃ t, kind = .token (.terminal t)

-- Of the rules, one with the longest match is chosen, and of those one for a keyword or sign.
def Chosen (cs : List Char) (rs : List (PieceKind × Recognizer)) : Option (PieceKind × Nat) → Prop
  | none => ∀ rule ∈ rs, (rule.2.reach cs).matched = none
  | some (kind, n) => (∃ r, (kind, r) ∈ rs ∧ (r.reach cs).matched = some n) ∧
      ∀ rule ∈ rs, ∀ m, (rule.2.reach cs).matched = some m → m ≤ n ∧ (m = n → rule.1.Fixed → kind.Fixed)

theorem attempt_chosen (cs : List Char) : Chosen cs rules (attempt cs).best := by
  have sorted : rules.Pairwise fun first second => second.1.Fixed → first.1.Fixed := by
    simp [rules_eq, List.pairwise_append, List.pairwise_map, open_, fixed, PieceKind.Fixed, List.pairwise_of_forall]
  unfold attempt
  generalize rules = rs at sorted
  induction rs using List.reverseRecOn with
  | nil => simp [Chosen]
  | append_singleton rs rule ih =>
    rw [List.pairwise_append] at sorted
    have ih := ih sorted.1
    rw [List.foldl_append, List.foldl_cons, List.foldl_nil]
    generalize rs.foldl _ _ = a at ih
    obtain ⟨kind, r⟩ := rule
    cases old : a.best <;> cases found : (r.reach cs).matched <;> simp only [Attempt.consider, found, old] at ih ⊢
    case some.some => split <;> grind [Chosen]
    all_goals grind [Chosen]

theorem spelling_plain (t : Terminal) : ∃ c cs, t.spelling.toList = c :: cs ∧
    ' ' ∉ c :: cs ∧ isBlank c = false ∧ c.isDigit = false ∧ c ≠ '"' ∧ c ≠ '\'' := by
  have plain : ∀ t ∈ Terminal.all, (match t.spelling.toList with
      | [] => false
      | c :: cs => !(c :: cs).contains ' ' && !isBlank c && !c.isDigit && c != '"' && c != '\'') =
        true := by
    decide +kernel
  have here := plain t t.mem_all
  split at here
  · cases here
  · next c cs same => exact ⟨c, cs, same, by simpa [and_assoc] using here⟩

theorem spelling_injective (t u : Terminal) (same : t.spelling.toList = u.spelling.toList) : t = u := by
  have all : ∀ t ∈ Terminal.all, ∀ u ∈ Terminal.all, t.spelling = u.spelling → t = u := by
    decide +kernel
  exact all t t.mem_all u u.mem_all (String.toList_inj.1 same)

def Starts : PieceKind → Char → Prop
  | .token (.terminal _), c => isBlank c = false ∧ c.isDigit = false ∧ c ≠ '"' ∧ c ≠ '\''
  | .token .ident, c => isLetter c = true ∨ c = '\''
  | .token .string, c => c = '"'
  | .token .number, c => c.isDigit = true
  | .token .comment, c => c = '/'
  | .blank, c => isBlank c = true
  | .token .eof, _ | .fault, _ => False

section

variable {kind : PieceKind} {cs : List Char} (spelled : Spelled kind cs)
include spelled

theorem Spelled.starts : ∃ c more, cs = c :: more ∧ Starts kind c := by
  obtain (t | _ | _ | _ | _ | _) | _ | _ := kind
  case token.terminal =>
    obtain ⟨c, more, same, -, plain⟩ := spelling_plain t
    exact ⟨c, more, spelled.trans same, plain⟩
  case token.number =>
    obtain ⟨_ | ⟨c, ds⟩, rest, rfl, ⟨some, digits⟩, -⟩ := spelled
    · simp at some
    · exact ⟨c, _, rfl, digits c (by simp)⟩
  case blank =>
    obtain ⟨some, blank⟩ := spelled
    obtain ⟨c, more, rfl⟩ := List.exists_cons_of_ne_nil some
    exact ⟨c, more, rfl, blank c (by simp)⟩
  all_goals grind [Spelled, Starts]

theorem Spelled.ne_nil : cs ≠ [] := by
  obtain ⟨c, more, rfl, -⟩ := spelled.starts
  simp

end

-- A piece at the start of a text: no rule matches more of the text, and where a keyword or a sign matches as
-- much, it is that. Where no rule matches, it is a fault.
structure Leads (kind : PieceKind) (chars text : List Char) : Prop where
  starts : chars <+: text
  nonempty : chars ≠ []
  spelled : kind ≠ .fault → Spelled kind chars
  longest : ∀ k cs, Spelled k cs → cs <+: text → kind ≠ .fault ∧ cs.length ≤ chars.length
  first : ∀ t : Terminal, chars = t.spelling.toList → kind = .token (.terminal t)

theorem nextPiece_leads (c : Char) (cs : List Char) : ∃ kind n, nextPiece (c :: cs) = (kind, n) ∧
    (kind ≠ .fault → n ≤ (c :: cs).length) ∧ Leads kind ((c :: cs).take n) (c :: cs) := by
  have found {k : PieceKind} {ds : List Char} (spelled : Spelled k ds) (starts : ds <+: c :: cs) :
      ∃ rule ∈ rules, ∃ m, (rule.2.reach (c :: cs)).matched = some m ∧ ds.length ≤ m := by
    obtain ⟨r, member⟩ := exists_rule spelled
    exact ⟨_, member, (r.matched_spec r.start _).2 ds starts ((accepts_iff_spelled member ds).2 spelled)⟩
  have chosen := attempt_chosen (c :: cs)
  cases best : (attempt (c :: cs)).best with
  | none =>
    rw [best] at chosen
    have never (k : PieceKind) (ds : List Char) (spelled : Spelled k ds) (starts : ds <+: c :: cs) : False := by
      obtain ⟨rule, member, m, matched, -⟩ := found spelled starts
      simp [chosen rule member] at matched
    refine ⟨.fault, (attempt (c :: cs)).viable + 1, by simp [nextPiece, best], by simp, List.take_prefix _ _, by simp,
      by simp, fun k ds spelled starts => (never k ds spelled starts).elim, ?_⟩
    exact fun t same => (never (.token (.terminal t)) _ same (List.take_prefix _ _)).elim
  | some p =>
    obtain ⟨kind, n⟩ := p
    rw [best] at chosen
    obtain ⟨⟨r, member, own⟩, all⟩ := chosen
    obtain ⟨bound, accepts⟩ := (r.matched_spec r.start _).1 n own
    have spelled : Spelled kind ((c :: cs).take n) := (accepts_iff_spelled member _).1 accepts
    obtain _ | n := n
    · exact absurd rfl spelled.ne_nil
    refine ⟨kind, n + 1, by simp [nextPiece, best], fun _ => bound, List.take_prefix _ _, spelled.ne_nil,
      fun _ => spelled, fun k ds other starts => ?_, fun t same => ?_⟩
    · obtain ⟨rule, known, m, matched, less⟩ := found other starts
      exact ⟨(by rintro rfl; cases spelled), by grind⟩
    · -- The rule of `t` matches as much, so that another keyword or sign must be the same.
      have known : fixed t ∈ rules := by simp [rules_eq, List.mem_map_of_mem t.mem_all]
      obtain ⟨m, matched, less⟩ := ((literal t.spelling.toList).matched_spec _ _).2 _ (List.take_prefix (n + 1) _)
        ((literal_accepts _ _ _).2 same)
      obtain ⟨most, both⟩ := all _ known m matched
      obtain ⟨u, rfl⟩ := both (by grind) ⟨t, rfl⟩
      rw [spelling_injective t u (same.symm.trans spelled)]

-- Where a place lies in a text that has been read up to it.
structure Located (read : List Char) (p : Position) : Prop where
  line : p.line = 1 + read.count '\n'
  column : p.column = (read.reverse.takeWhile (· ≠ '\n')).length

theorem located_advance (cs : List Char) : Located cs (Position.start.advance cs) := by
  induction cs using List.reverseRecOn with
  | nil => exact ⟨rfl, rfl⟩
  | append_singleton cs c ih =>
    have last : Position.start.advance (cs ++ [c]) = (Position.start.advance cs).next c := by
      simp [Position.advance]
    rw [last, Position.next]
    by_cases line : c = '\n'
    · exact ⟨by simp [line, ih.line, Nat.add_assoc], by simp [line]⟩
    · exact ⟨by simp [line, ih.line], by simp [line, ih.column]⟩

theorem cut_tiles (fuel : Nat) (p : Position) (cs : List Char) (enough : cs.length ≤ fuel) :
    (cut fuel p cs).flatMap Piece.chars = cs ∧ ∀ before piece behind, cut fuel p cs = before ++ piece :: behind →
      piece.position = p.advance (before.flatMap Piece.chars) ∧
        Leads piece.kind piece.chars ((piece :: behind).flatMap Piece.chars) := by
  induction fuel generalizing p cs with
  | zero =>
    obtain rfl := List.length_eq_zero_iff.1 (Nat.le_zero.1 enough)
    simp [cut]
  | succ fuel ih =>
    obtain _ | ⟨c, cs⟩ := cs
    · simp [cut]
    obtain ⟨kind, n, next, -, leads⟩ := nextPiece_leads c cs
    have first : cut (fuel + 1) p (c :: cs) =
        ⟨kind, (c :: cs).take n, p⟩ :: cut fuel (p.advance ((c :: cs).take n)) ((c :: cs).drop n) := by
      rw [cut, next]
    have shorter : ((c :: cs).drop n).length ≤ fuel := by
      have := List.length_pos_iff.2 leads.nonempty
      simp at this enough ⊢
      omega
    obtain ⟨whole, each⟩ := ih (p.advance ((c :: cs).take n)) _ shorter
    have joined : (cut (fuel + 1) p (c :: cs)).flatMap Piece.chars = c :: cs := by
      rw [first, List.flatMap_cons, whole, List.take_append_drop]
    refine ⟨joined, fun before piece behind split => ?_⟩
    obtain _ | ⟨_, before⟩ := before
    · rw [List.nil_append] at split
      rw [← split, joined]
      obtain ⟨rfl, -⟩ := List.cons.inj (first.symm.trans split)
      exact ⟨rfl, leads⟩
    · obtain ⟨rfl, later⟩ := List.cons.inj (first.symm.trans split)
      obtain ⟨place, last⟩ := each before piece behind later
      exact ⟨by simp [place, Position.advance], last⟩

-- The pieces of a text make it up, in order, and each is the longest that can be read at its place.
theorem pieces_tile (text : String) : (pieces text).flatMap Piece.chars = text.toList ∧
    (∀ before piece behind, pieces text = before ++ piece :: behind →
      Located (before.flatMap Piece.chars) piece.position ∧
        Leads piece.kind piece.chars ((piece :: behind).flatMap Piece.chars)) ∧
    ∃ p, Located text.toList p ∧ tokens text = (pieces text).filterMap Piece.token? ++ [⟨.eof, "<EOF>", p⟩] := by
  obtain ⟨whole, each⟩ := cut_tiles _ .start text.toList (Nat.le_refl _)
  refine ⟨whole, fun before piece behind split => ?_, _, located_advance _, rfl⟩
  obtain ⟨place, leads⟩ := each before piece behind split
  exact ⟨place ▸ located_advance _, leads⟩

end Modelica.Lexer
