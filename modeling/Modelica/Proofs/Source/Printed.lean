import Modelica.Library.Define
import Modelica.Proofs.Token.Words

set_option autoImplicit false

namespace Modelica

open Word (IsName closes)

-- Digits alone are an integer unless there are very many of them.
inductive Numeral : String → Literal → Prop
  | integer (s : String) (start : s.toList ≠ []) (digits : s.toList.all Char.isDigit = true)
      (short : s.toList.length ≤ Define.longestInteger) :
      Numeral s (.integer (Decimal.digitsValue s.toList))
  | real (s : String) (x : Binary64) (reads : Lexer.number.Accepts .start s.toList)
      (other : s.toList.all Char.isDigit = false) (value : Decimal.read? s.toList = some x) :
      Numeral s (.real x)

theorem Numeral.reads {s : String} {v : Literal} (numeral : Numeral s v) : Lexer.number.Accepts .start s.toList := by
  cases numeral with
  | real x reads => exact reads
  | integer start digits short =>
    exact Lexer.accepts_number.2 ⟨_, [], (List.append_nil _).symm, ⟨start, List.all_eq_true.1 digits⟩, .nil⟩

-- What a stretch of words stands for. An operand of a level needs no brackets where operators bind less
-- tightly.
inductive Phrase where
  | primary (e : Expr)
  | operand (level : Nat) (e : Expr)
  | whole (e : Expr)
  | items (es : List Expr)
  | moreItems (es : List Expr)
  | part (name : String) (subscripts : Option (List Expr))
  | reference (r : ComponentRef)
  | subscript (e : Expr)
  | subscripts (es : List Expr)
  | moreSubscripts (es : List Expr)
  | branches (conditions values : List Expr)

namespace Phrase

-- How tightly a binary operator binds. Above all of these stand powers and, tightest, the minus in front of an
-- operand; `not` stands between the relations and `and`.
def level? : Terminal → Option Nat
  | .star | .slash | .dotStar | .dotSlash => some 7
  | .plus | .minus | .dotPlus | .dotMinus => some 6
  | .less | .lessEq | .greater | .greaterEq | .equalsEquals | .lessGreater => some 5
  | .and_ => some 3
  | .or_ => some 2
  | _ => none

def negationLevel : Nat := 9

def notLevel : Nat := 4

end Phrase

open Phrase (level? negationLevel notLevel)

inductive Printed : Phrase → List Word → Prop
  | number {s : String} {v : Literal} (numeral : Numeral s v) :
      Printed (.primary (.literal v)) [.number s]
  | string {s : String} (closed : closes false s.toList = true) :
      Printed (.primary (.literal (.string s))) [.string s]
  | bool (b : Bool) :
      Printed (.primary (.literal (.bool b))) [.sign (if b then .true_ else .false_)]
  | ref {r : ComponentRef} {ws : List Word} (reference : Printed (.reference r) ws) :
      Printed (.primary (.ref r)) ws
  | call {f : ComponentRef} {es : List Expr} {ws vs : List Word}
      (function : Printed (.reference f) ws) (items : Printed (.items es) vs) :
      Printed (.primary (.apply (.function f) es))
        (ws ++ .sign .leftParen :: (vs ++ [.sign .rightParen]))
  | der {es : List Expr} {ws : List Word} (items : Printed (.items es) ws) :
      Printed (.primary (.apply (.named "der") es))
        (.sign .der :: .sign .leftParen :: (ws ++ [.sign .rightParen]))
  | array {es : List Expr} {ws : List Word} (items : Printed (.items es) ws) :
      Printed (.primary (.array es)) (.sign .leftBrace :: (ws ++ [.sign .rightBrace]))
  | paren {e : Expr} {ws : List Word} (inside : Printed (.whole e) ws) :
      Printed (.primary e) (.sign .leftParen :: (ws ++ [.sign .rightParen]))
  | bare {level : Nat} {e : Expr} {ws : List Word} (primary : Printed (.primary e) ws) :
      Printed (.operand level e) ws
  | power {level : Nat} {sign : Terminal} {l r : Expr} {ws vs : List Word}
      (isPower : sign = .caret ∨ sign = .dotCaret) (left : Printed (.primary l) ws)
      (right : Printed (.primary r) vs) :
      Printed (.operand level (.apply (.named sign.spelling) [l, r])) (ws ++ .sign sign :: vs)
  | neg {level : Nat} {e : Expr} {ws : List Word} (operand : Printed (.operand negationLevel e) ws) :
      Printed (.operand level (.apply (.named "-") [e])) (.sign .minus :: ws)
  | not_ {level : Nat} {e : Expr} {ws : List Word} (loose : level ≤ notLevel)
      (operand : Printed (.operand notLevel e) ws) :
      Printed (.operand level (.apply (.named "not") [e])) (.sign .not_ :: ws)
  | binary {level own : Nat} {sign : Terminal} {l r : Expr} {ws vs : List Word}
      (binds : level? sign = some own) (loose : level ≤ own) (left : Printed (.operand own l) ws)
      (right : Printed (.operand (own + 1) r) vs) :
      Printed (.operand level (.apply (.named sign.spelling) [l, r])) (ws ++ .sign sign :: vs)
  | simple {e : Expr} {ws : List Word} (operand : Printed (.operand 0 e) ws) :
      Printed (.whole e) ws
  | conditional {c v e : Expr} {cs vs : List Expr} {first second more last : List Word}
      (condition : Printed (.whole c) first) (value : Printed (.whole v) second)
      (branches : Printed (.branches cs vs) more) (otherwise : Printed (.whole e) last) :
      Printed (.whole (.conditional (c :: cs) (v :: vs ++ [e])))
        (.sign .if_ :: (first ++ .sign .then_ :: (second ++ (more ++ .sign .else_ :: last))))
  | noBranch : Printed (.branches [] []) []
  | branch {c v : Expr} {cs vs : List Expr} {first second more : List Word}
      (condition : Printed (.whole c) first) (value : Printed (.whole v) second)
      (branches : Printed (.branches cs vs) more) :
      Printed (.branches (c :: cs) (v :: vs))
        (.sign .elseif :: (first ++ .sign .then_ :: (second ++ more)))
  | items {e : Expr} {es : List Expr} {ws vs : List Word} (first : Printed (.whole e) ws)
      (more : Printed (.moreItems es) vs) : Printed (.items (e :: es)) (ws ++ vs)
  | noItem : Printed (.moreItems []) []
  | item {e : Expr} {es : List Expr} {ws vs : List Word} (next : Printed (.whole e) ws)
      (more : Printed (.moreItems es) vs) :
      Printed (.moreItems (e :: es)) (.sign .comma :: (ws ++ vs))
  | plainPart {s : String} (isName : IsName s) : Printed (.part s none) [.name s]
  | subscriptedPart {s : String} {es : List Expr} {ws : List Word} (isName : IsName s)
      (subscripts : Printed (.subscripts es) ws) :
      Printed (.part s (some es))
        (.name s :: .sign .leftBracket :: (ws ++ [.sign .rightBracket]))
  | lastPart {s : String} {subscripts : Option (List Expr)} {ws : List Word}
      (part : Printed (.part s subscripts) ws) :
      Printed (.reference (.mk s [subscripts] none)) ws
  | dotted {s : String} {subscripts : Option (List Expr)} {r : ComponentRef} {ws vs : List Word}
      (part : Printed (.part s subscripts) ws) (rest : Printed (.reference r) vs) :
      Printed (.reference (.mk s [subscripts] (some r))) (ws ++ .sign .dot :: vs)
  | index {e : Expr} {ws : List Word} (whole : Printed (.whole e) ws) : Printed (.subscript e) ws
  | allOf : Printed (.subscript (.slice .absent .absent (.integer 1))) [.sign .colon]
  | subscripts {e : Expr} {es : List Expr} {ws vs : List Word}
      (first : Printed (.subscript e) ws) (more : Printed (.moreSubscripts es) vs) :
      Printed (.subscripts (e :: es)) (ws ++ vs)
  | noSubscript : Printed (.moreSubscripts []) []
  | nextSubscript {e : Expr} {es : List Expr} {ws vs : List Word}
      (next : Printed (.subscript e) ws) (more : Printed (.moreSubscripts es) vs) :
      Printed (.moreSubscripts (e :: es)) (.sign .comma :: (ws ++ vs))

namespace Word

def opens (more : List Terminal) : Word → Bool
  | .sign t => t ∈ Terminal.true_ :: .false_ :: .der :: .leftBrace :: .leftParen :: more
  | _ => true

theorem kind_ne_of_opens {more : List Terminal} (w : Word) (opens : w.opens more = true)
    (t : Terminal) (other : t ∉ Terminal.true_ :: .false_ :: .der :: .leftBrace :: .leftParen :: more) :
    w.kind ≠ .terminal t := by
  cases w with
  | sign u =>
    rintro ⟨⟩
    exact other (by simpa [Word.opens] using opens)
  | name | number | string => nofun

theorem opens_more {less more : List Terminal} (w : Word) (opens : w.opens less = true)
    (sub : ∀ t ∈ less, t ∈ more) : w.opens more = true := by
  cases w with
  | sign t =>
    simp only [Word.opens, List.mem_cons, decide_eq_true_eq] at opens ⊢
    grind
  | name | number | string => rfl

end Word

namespace Phrase

def starts : Phrase → Word → Prop
  | primary _, w => w.opens [] = true
  | operand _ _, w => w.opens [.minus, .not_] = true
  | whole _, w | items _, w => w.opens [.minus, .not_, .if_] = true
  | subscript _, w | subscripts _, w => w.opens [.minus, .not_, .if_, .colon] = true
  | part s _, w => w = .name s
  | reference r, w => w = .name r.name
  | moreItems _, _ | moreSubscripts _, _ | branches _ _, _ => True

def optional : Phrase → Bool
  | moreItems _ | moreSubscripts _ | branches _ _ => true
  | _ => false

end Phrase

namespace Printed

variable {phrase : Phrase} {ws : List Word}

theorem start (printed : Printed phrase ws) (needed : phrase.optional = false) :
    ∃ w vs, ws = w :: vs ∧ phrase.starts w := by
  induction printed with
  | number | string | der | array | paren | neg | not_ | conditional | plainPart | subscriptedPart | allOf =>
    exact ⟨_, _, rfl, rfl⟩
  | bool b => exact ⟨_, _, rfl, by cases b <;> rfl⟩
  | ref _ ih | call _ _ ih _ =>
    obtain ⟨w, vs, rfl, rfl⟩ := ih rfl
    exact ⟨_, _, rfl, rfl⟩
  | bare _ ih | power _ _ _ ih | simple _ ih =>
    obtain ⟨w, vs, rfl, starts⟩ := ih rfl
    exact ⟨w, _, rfl, w.opens_more starts (by simp)⟩
  | binary _ _ _ _ ih | items _ _ ih | subscripts _ _ ih | lastPart _ ih | dotted _ _ ih =>
    obtain ⟨w, vs, rfl, starts⟩ := ih rfl
    exact ⟨w, _, rfl, starts⟩
  | index _ ih =>
    obtain ⟨w, vs, rfl, starts⟩ := ih rfl
    exact ⟨w, _, rfl, w.opens_more starts (by grind)⟩
  | noBranch | branch | noItem | item | noSubscript | nextSubscript => cases needed

theorem inner (printed : Printed phrase ws) : ∀ w ∈ ws, w.Proper ∧ w ≠ .sign .equals := by
  induction printed with
  | number numeral => simpa [Word.Proper] using numeral.reads
  | string closed => simpa [Word.Proper] using closed
  | bool b => cases b <;> simp [Word.Proper]
  | plainPart isName => simpa [Word.Proper] using isName
  | subscriptedPart isName _ ih => simpa [Word.Proper, or_imp, forall_and, isName] using ih
  | power isPower _ _ first second =>
    obtain rfl | rfl := isPower <;> grind [Word.Proper]
  | @binary level own sign l r ws vs binds loose _ _ first second =>
    have other : sign ≠ .equals := by
      rintro rfl
      cases binds
    grind [Word.Proper]
  | noBranch | noItem | noSubscript | allOf => simp [Word.Proper]
  | ref _ ih | bare _ ih | simple _ ih | lastPart _ ih | index _ ih => exact ih
  | der _ ih | array _ ih | paren _ ih | neg _ ih | not_ _ _ ih => grind [Word.Proper]
  | call _ _ first second | items _ _ first second | item _ _ first second
  | dotted _ _ first second | subscripts _ _ first second | nextSubscript _ _ first second =>
    grind [Word.Proper]
  | conditional _ _ _ _ first second more last | branch _ _ _ first second more => grind [Word.Proper]

end Printed

end Modelica
