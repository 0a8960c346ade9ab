import Mathlib.Data.List.Forall2
import Modelica.Proofs.Xml.Decoding

set_option autoImplicit false

namespace Modelica.Xml

-- The element of an equation, made on the way from one state to another, where the components with certain
-- marks are taken away.
def Writes (ctx : Context) (taken : List Nat) (m n : Made) : Equation → Element → Prop
  | .simple l r _, x => ∃ a k b, item ctx l m = .ok (.element a, k) ∧ item ctx r k = .ok (.element b, n) ∧
      x = .mk "equal" [] (Element.withoutAll taken [a, b]) none
  | .whenThen cs bs _, x => ∃ a others k rows ys, items ctx cs m = .ok (.element a :: others, k) ∧
      blocks ctx bs k = .ok (rows, n) ∧ rows.headD [] = ys.map .element ∧
      x = .mk "when" [] [.mk "cond" [] (Element.withoutAll taken [a]) none,
        .mk "then" [] (Element.withoutAll taken ys) none] none
  | .call name es _, x => ∃ ys, items ctx es m = .ok (ys.map .element, n) ∧
      x = .mk "apply" [("builtin", name)] (Element.withoutAll taken ys) none
  | _, _ => False

-- Each equation starts in the state that the one before it has left.
def WritesAll (ctx : Context) (taken : List Nat) : List Equation → Made → List Element → Made → Prop
  | [], m, rows, n => rows = [] ∧ n = m
  | q :: qs, m, rows, n => ∃ k row rest, rows = row :: rest ∧ Writes ctx taken m k q row ∧
      WritesAll ctx taken qs k rest n

-- What the walk through a class meets before its equations, and what it meets after them.
def opening (ctx : Context) (c : ClassDef) : Making Unit := do
  visitPieces ctx (Script.outerPieces c).1
  let _ ← equations ctx c.initialEquations

def closing (ctx : Context) (c : ClassDef) : Making Unit := do
  let _ ← items ctx (c.constraints.flatMap Constraint.exprs)
  let _ ← items ctx (Statement.allExprs c.initialStatements)
  let _ ← items ctx (Statement.allExprs c.statements)
  visitPieces ctx (Script.outerPieces c).2

def Made.Marked (m : Made) : Prop := ∀ p ∈ m.symbols, p.2.mark ≠ none

section Runs

variable {α β γ : Type} {ctx : Context} {m n : Made}

theorem exists_of_bind {x : Making α} {f : α → Making β} {b : β} (ran : (x >>= f) m = .ok (b, n)) :
    ∃ a k, x m = .ok (a, k) ∧ f a k = .ok (b, n) := by
  cases here : x m with
  | error e =>
    rw [bind_error here] at ran
    cases ran
  | ok r => exact ⟨r.1, r.2, rfl, (bind_ok here f).symm.trans ran⟩

theorem eq_of_make {tag : String} {as : List (String × String)} {cs : List Element} {e : Element}
    (ran : make tag as cs m = .ok (e, n)) : e = .mk tag as cs none ∧ n = m := by
  unfold make at ran
  split at ran <;> cases ran
  exact ⟨rfl, rfl⟩

theorem eq_of_getAll {is : List Item} {es : List Element} (ran : Item.getAll is m = .ok (es, n)) :
    is = es.map .element ∧ n = m := by
  induction is generalizing es with
  | nil =>
    cases ran
    exact ⟨rfl, rfl⟩
  | cons i is ih =>
    obtain ⟨e, k, first, ran⟩ := exists_of_bind ran
    obtain ⟨es, k', rest, ran⟩ := exists_of_bind ran
    cases ran
    cases i <;> cases first
    obtain ⟨rfl, rfl⟩ := ih rest
    exact ⟨rfl, rfl⟩

theorem componentOf_eq {s : SymbolId} {x : Element} (ran : componentOf s m = .ok (x, n)) :
    m.symbols.lookup s = some x ∧ n = m := by
  obtain ⟨_, _, ⟨⟩, ran⟩ := exists_of_bind ran
  cases found : m.symbols.lookup s with
  | none =>
    rw [found] at ran
    cases ran
  | some y =>
    rw [found] at ran
    cases ran
    exact ⟨rfl, rfl⟩

theorem forall₂_components {ids : List SymbolId} {es : List Element} (ran : ids.mapM componentOf m = .ok (es, n)) :
    List.Forall₂ (fun s e => m.symbols.lookup s = some e) ids es ∧ n = m := by
  induction ids generalizing es with
  | nil =>
    cases ran
    exact ⟨.nil, rfl⟩
  | cons s ids ih =>
    rw [List.mapM_cons] at ran
    obtain ⟨e, k, first, ran⟩ := exists_of_bind ran
    obtain ⟨es, k', rest, ran⟩ := exists_of_bind ran
    cases ran
    obtain ⟨found, rfl⟩ := componentOf_eq first
    obtain ⟨others, rfl⟩ := ih rest
    exact ⟨.cons found others, rfl⟩

theorem equation_writes (taken : List Nat) {q : Equation} {x : Element}
    (ran : equation ctx q m = .ok (.element x, n)) :
    x.mark = none ∧ Writes ctx taken m n q (x.without taken) := by
  match q with
  | .simple l r _ =>
    obtain ⟨i, _, left, ran⟩ := exists_of_bind ran
    obtain ⟨j, _, right, ran⟩ := exists_of_bind ran
    obtain ⟨a, _, first, ran⟩ := exists_of_bind ran
    obtain ⟨b, _, second, ran⟩ := exists_of_bind ran
    obtain ⟨y, _, made, ran⟩ := exists_of_bind ran
    cases ran
    cases i <;> cases first
    cases j <;> cases second
    obtain ⟨rfl, rfl⟩ := eq_of_make made
    exact ⟨rfl, a, _, b, left, right, by rw [Element.without]⟩
  | .whenThen cs bs _ =>
    obtain ⟨is, _, conditions, ran⟩ := exists_of_bind ran
    obtain ⟨rows, _, parts, ran⟩ := exists_of_bind ran
    obtain ⟨a, _, first, ran⟩ := exists_of_bind ran
    obtain ⟨ys, _, all, ran⟩ := exists_of_bind ran
    obtain ⟨y, _, made, ran⟩ := exists_of_bind ran
    obtain ⟨z, _, made', ran⟩ := exists_of_bind ran
    obtain ⟨w, _, whole, ran⟩ := exists_of_bind ran
    cases ran
    obtain ⟨rfl, rfl⟩ := eq_of_make made
    obtain ⟨rfl, rfl⟩ := eq_of_make made'
    obtain ⟨rfl, rfl⟩ := eq_of_make whole
    cases is with
    | nil => cases first
    | cons i others =>
      cases i <;> cases first
      obtain ⟨body, rfl⟩ := eq_of_getAll all
      exact ⟨rfl, a, others, _, rows, ys, conditions, parts, body,
        by simp [Element.without, Element.withoutAll, Element.mark]⟩
  | .call name es _ =>
    obtain ⟨is, _, operands, ran⟩ := exists_of_bind ran
    obtain ⟨ys, _, all, ran⟩ := exists_of_bind ran
    obtain ⟨w, _, whole, ran⟩ := exists_of_bind ran
    cases ran
    obtain ⟨rfl, rfl⟩ := eq_of_make whole
    obtain ⟨rfl, rfl⟩ := eq_of_getAll all
    exact ⟨rfl, ys, operands, by rw [Element.without]⟩
  | .ifThen _ _ _ | .forLoop _ _ _ | .connect _ _ _ _ =>
    obtain ⟨_, _, -, ran⟩ := exists_of_bind ran
    obtain ⟨_, _, -, ran⟩ := exists_of_bind ran
    cases ran

theorem equations_writesAll (taken : List Nat) {qs : List Equation} {ys : List Element}
    (ran : equations ctx qs m = .ok (ys.map .element, n)) :
    WritesAll ctx taken qs m (Element.withoutAll taken ys) n := by
  induction qs generalizing m ys with
  | nil =>
    cases ys with
    | nil =>
      cases ran
      exact ⟨rfl, rfl⟩
    | cons y ys => cases ran
  | cons q qs ih =>
    obtain ⟨i, k, first, ran⟩ := exists_of_bind ran
    obtain ⟨is, k', rest, ran⟩ := exists_of_bind ran
    cases ys with
    | nil => cases ran
    | cons y ys =>
      cases ran
      obtain ⟨unmarked, writes⟩ := equation_writes taken first
      rw [Element.withoutAll, unmarked]
      exact ⟨k, _, _, rfl, writes, ih rest⟩

end Runs

-- Only a component that the walk meets changes the state, and its element gets a mark.
def Marks {α : Type} (x : Making α) : Prop := ∀ m a n, x m = .ok (a, n) → m.Marked → n.Marked

namespace Marks

variable {α β : Type}

theorem pure (a : α) : Marks (Pure.pure a) := by
  rintro m _ n ⟨⟩
  exact id

theorem fail (e : Error) : Marks (Xml.fail e : Making α) := by
  rintro m _ n ⟨⟩

theorem bind {x : Making α} {f : α → Making β} (first : Marks x) (rest : ∀ a, Marks (f a)) : Marks (x >>= f) := by
  intro m b n ran marked
  obtain ⟨a, k, here, there⟩ := exists_of_bind ran
  exact rest a k b n there (first m a k here marked)

theorem then_ {x : Making α} {f : α → β} (first : Marks x) : Marks (x >>= fun a => Pure.pure (f a)) :=
  first.bind fun _ => pure _

theorem make (tag : String) (as : List (String × String)) (cs : List Element) : Marks (Xml.make tag as cs) := by
  intro m e n ran marked
  rwa [(eq_of_make ran).2]

theorem getAll (is : List Item) : Marks (Item.getAll is) := by
  intro m es n ran marked
  rwa [(eq_of_getAll ran).2]

theorem get (i : Item) : Marks i.get := by
  cases i <;> first | exact pure _ | exact fail _

theorem literalOf (e : Expr) : Marks (Xml.literalOf e) := by
  cases e <;> first | exact pure _ | exact fail _

theorem valueItem (name : String) (e : Expr) : Marks (Xml.valueItem name e) := by
  refine bind (literalOf e) fun v => ?_
  cases v <;> first | exact pure _ | exact bind (make _ _ _) fun _ => then_ (make _ _ _)

theorem fixedItem (e : Expr) : Marks (Xml.fixedItem e) := by
  refine bind (literalOf e) fun v => ?_
  split
  · exact bind (make _ _ _) fun _ => then_ (make _ _ _)
  · exact pure _

theorem typeName (lib : Library) (t : SymbolType) : Marks (Xml.typeName lib t) := by
  unfold Xml.typeName
  split
  · exact pure _
  · split <;> first | exact pure _ | exact fail _
  · exact fail _

theorem component (lib : Library) (s : SymbolId) : Marks (Xml.component lib s) := by
  refine bind (valueItem _ _) fun _ => bind (valueItem _ _) fun _ => bind (fixedItem _) fun _ =>
    bind (make _ _ _) fun _ => bind (typeName _ _) fun _ => bind (make _ _ _) fun _ => bind (make _ _ _) fun _ => ?_
  rintro m _ n ⟨⟩ marked
  exact List.forall_mem_cons.2 ⟨Option.some_ne_none _, marked⟩

theorem componentOf (s : SymbolId) : Marks (Xml.componentOf s) := by
  intro m x n ran marked
  rwa [(componentOf_eq ran).2]

theorem applied (name : String) (is : List Item) : Marks (Xml.applied name is) := by
  refine bind (getAll is) fun _ => ?_
  split <;> exact make _ _ _

section Walk

variable {ctx : Context}

mutual

theorem item (visits : ∀ e, Marks (ctx.visit e)) (e : Expr) : Marks (Xml.item ctx e) := by
  match e with
  | .literal _ => exact then_ (make _ _ _)
  | .ref r => exact then_ (visitRef visits r)
  | .apply (.named _) es => exact bind (items visits es) fun _ => then_ (applied _ _)
  | .apply (.function r) es =>
    exact bind (visitRef visits r) fun _ => bind (items visits es) fun _ => then_ (applied _ _)
  | .conditional cs es => exact bind (items visits cs) fun _ => then_ (items visits es)
  | .array es | .tuple es => exact then_ (items visits es)
  | .slice a b c => exact bind (item visits a) fun _ => bind (item visits b) fun _ => then_ (item visits c)
  | .component s => exact bind (visits _) fun _ => then_ (componentOf s)
  | .modification _ => exact bind (visits _) fun _ => then_ (make _ _ _)

theorem items (visits : ∀ e, Marks (ctx.visit e)) (es : List Expr) : Marks (Xml.items ctx es) := by
  match es with
  | [] => exact pure _
  | e :: es => exact bind (item visits e) fun _ => then_ (items visits es)

theorem visitRef (visits : ∀ e, Marks (ctx.visit e)) (r : ComponentRef) : Marks (Xml.visitRef ctx r) := by
  match r with
  | .mk _ groups none => exact bind (visitGroups visits groups) fun _ => then_ (make _ _ _)
  | .mk _ groups (some c) =>
    exact bind (visitGroups visits groups) fun _ => bind (visitRef visits c) fun _ => then_ (make _ _ _)

theorem visitGroups (visits : ∀ e, Marks (ctx.visit e)) (groups : List (Option (List Expr))) : Marks (Xml.visitGroups ctx groups) := by
  match groups with
  | [] => exact pure _
  | none :: rest => exact visitGroups visits rest
  | some es :: rest => exact bind (items visits es) fun _ => visitGroups visits rest

end

mutual

theorem equation (visits : ∀ e, Marks (ctx.visit e)) (q : Equation) : Marks (Xml.equation ctx q) := by
  match q with
  | .simple l r _ =>
    exact bind (item visits l) fun _ => bind (item visits r) fun _ => bind (get _) fun _ => bind (get _) fun _ =>
      then_ (make _ _ _)
  | .ifThen cs bs _ => exact bind (items visits cs) fun _ => then_ (blocks visits bs)
  | .whenThen cs bs _ =>
    exact bind (items visits cs) fun _ => bind (blocks visits bs) fun _ => bind (get _) fun _ => bind (getAll _) fun _ =>
      bind (make _ _ _) fun _ => bind (make _ _ _) fun _ => then_ (make _ _ _)
  | .forLoop is es _ => exact bind (items visits _) fun _ => then_ (equations visits es)
  | .connect l r _ _ => exact bind (visitRef visits l) fun _ => then_ (visitRef visits r)
  | .call _ es _ =>
    exact bind (items visits es) fun _ => bind (getAll _) fun _ => then_ (make _ _ _)

theorem equations (visits : ∀ e, Marks (ctx.visit e)) (qs : List Equation) : Marks (Xml.equations ctx qs) := by
  match qs with
  | [] => exact pure _
  | q :: qs => exact bind (equation visits q) fun _ => then_ (equations visits qs)

theorem blocks (visits : ∀ e, Marks (ctx.visit e)) (bs : List (List Equation)) : Marks (Xml.blocks ctx bs) := by
  match bs with
  | [] => exact pure _
  | b :: bs => exact bind (equations visits b) fun _ => then_ (blocks visits bs)

end

theorem visitPieces (visits : ∀ e, Marks (ctx.visit e)) (ps : List Piece) : Marks (Xml.visitPieces ctx ps) := by
  match ps with
  | [] => exact pure _
  | .expr e :: rest => exact bind (item visits e) fun _ => visitPieces visits rest
  | .entry e :: rest => exact bind (visits e) fun _ => visitPieces visits rest

theorem opening (visits : ∀ e, Marks (ctx.visit e)) (c : ClassDef) : Marks (Xml.opening ctx c) :=
  bind (visitPieces visits _) fun _ => then_ (equations visits _)

theorem closing (visits : ∀ e, Marks (ctx.visit e)) (c : ClassDef) : Marks (Xml.closing ctx c) :=
  bind (items visits _) fun _ => bind (items visits _) fun _ => bind (items visits _) fun _ =>
    visitPieces visits _

end Walk

end Marks

-- The run of a class in four parts: what is met before its equations, the equations, what is met after them, and
-- the element with the components as they were made last.
theorem classElement_parts {ctx : Context} {c : ClassDef} {m n : Made} {e : Element}
    (ran : classElement ctx c m = .ok (e, n)) : ∃ name parts ys start ended, c.name = some name ∧
      opening ctx c m = .ok ((), start) ∧ equations ctx c.equations start = .ok (ys.map .element, ended) ∧
      closing ctx c ended = .ok ((), n) ∧
      List.Forall₂ (fun s x => n.symbols.lookup s = some x) c.symbols.values parts ∧
      e = .mk "classDefinition" [("name", name)] [.mk "class" [("kind", "model")]
        (parts ++ [.mk "equation" [] (Element.withoutAll (parts.filterMap Element.mark) ys) none]) none] none := by
  obtain ⟨_, _, visited, ran⟩ := exists_of_bind ran
  obtain ⟨_, start, initial, ran⟩ := exists_of_bind ran
  obtain ⟨is, ended, made, ran⟩ := exists_of_bind ran
  obtain ⟨_, _, constraints, ran⟩ := exists_of_bind ran
  obtain ⟨_, _, statements, ran⟩ := exists_of_bind ran
  obtain ⟨_, _, statements', ran⟩ := exists_of_bind ran
  obtain ⟨_, _, visited', ran⟩ := exists_of_bind ran
  obtain ⟨parts, _, found, ran⟩ := exists_of_bind ran
  obtain ⟨ys, _, all, ran⟩ := exists_of_bind ran
  obtain ⟨whole, _, first, ran⟩ := exists_of_bind ran
  obtain ⟨body, _, second, last⟩ := exists_of_bind ran
  obtain ⟨components, rfl⟩ := forall₂_components found
  obtain ⟨rfl, rfl⟩ := eq_of_getAll all
  obtain ⟨rfl, rfl⟩ := eq_of_make first
  obtain ⟨rfl, rfl⟩ := eq_of_make second
  have before : opening ctx c m = .ok ((), start) :=
    (bind_ok visited _).trans ((bind_ok initial _).trans rfl)
  cases named : c.name with
  | none =>
    rw [named] at last
    cases last
  | some name =>
    rw [named] at last
    obtain ⟨rfl, rfl⟩ := eq_of_make last
    have after : closing ctx c ended = .ok ((), n) :=
      (bind_ok constraints _).trans ((bind_ok statements _).trans ((bind_ok statements' _).trans visited'))
    exact ⟨name, parts, ys, start, ended, rfl, before, made, after, components, by rw [Element.without]⟩

theorem Marks.classElement {ctx : Context} (visits : ∀ e, Marks (ctx.visit e)) (c : ClassDef) :
    Marks (Xml.classElement ctx c) := by
  intro m e n ran marked
  obtain ⟨_, _, _, _, _, -, before, made, after, -⟩ := classElement_parts ran
  exact closing visits c _ _ _ after (equations visits _ _ _ _ made (opening visits c _ _ _ before marked))

theorem Marks.visit (lib : Library) (fuel : Nat) (e : Entry) : Marks (Xml.visit lib fuel e) := by
  induction fuel generalizing e with
  | zero => exact fail _
  | succ fuel ih =>
    cases e with
    | class_ c => exact bind (classElement ih _) fun _ => pure _
    | symbol s => exact bind (visitPieces ih _) fun _ => component lib s
    | modification i =>
      refine bind (visitPieces ih _) fun _ => ?_
      split
      · exact pure _
      · exact fail _
    | argument _ => exact visitPieces ih _

theorem withoutAll_of_mark {taken : List Nat} {x : Element} (others : List Element) {i : Nat}
    (has : x.mark = some i) (known : i ∈ taken) :
    Element.withoutAll taken (x :: others) = Element.withoutAll taken others := by
  rw [Element.withoutAll, has]
  simp [known]

theorem exists_mem_of_forall₂ {α β : Type} {R : α → β → Prop} {xs : List α} {ys : List β}
    (all : List.Forall₂ R xs ys) {x : α} (has : x ∈ xs) : ∃ y ∈ ys, R x y := by
  induction all with
  | nil => cases has
  | cons here _ ih =>
    obtain rfl | later := List.mem_cons.1 has
    · exact ⟨_, List.mem_cons_self, here⟩
    · obtain ⟨y, there, holds⟩ := ih later
      exact ⟨y, List.mem_cons_of_mem _ there, holds⟩

-- The element of a class has its components, each as it was made last, and one child for each equation, made in
-- the order of the walk. A side of an equation that is a component of the class has been taken away, unless a new
-- element was made for the component later on in the walk.
theorem classElement_writes (lib : Library) (fuel : Nat) (c : ClassDef) (m n : Made) (e : Element)
    (marked : m.Marked) (ran : classElement ⟨lib, visit lib fuel⟩ c m = .ok (e, n)) :
    n.Marked ∧ ∃ name parts rows start ended, c.name = some name ∧
      e = .mk "classDefinition" [("name", name)] [.mk "class" [("kind", "model")]
        (parts ++ [.mk "equation" [] rows none]) none] none ∧
      List.Forall₂ (fun s x => n.symbols.lookup s = some x) c.symbols.values parts ∧
      opening ⟨lib, visit lib fuel⟩ c m = .ok ((), start) ∧
      WritesAll ⟨lib, visit lib fuel⟩ (parts.filterMap Element.mark) c.equations start rows ended ∧
      closing ⟨lib, visit lib fuel⟩ c ended = .ok ((), n) ∧
      ∀ s ∈ c.symbols.values, ∀ k a k', item ⟨lib, visit lib fuel⟩ (.component s) k = .ok (.element a, k') →
        k'.symbols.lookup s = n.symbols.lookup s → ∀ others,
          Element.withoutAll (parts.filterMap Element.mark) (a :: others) =
            Element.withoutAll (parts.filterMap Element.mark) others := by
  have last := Marks.classElement (Marks.visit lib fuel) c m e n ran marked
  obtain ⟨name, parts, ys, start, ended, named, before, made, after, components, rfl⟩ := classElement_parts ran
  refine ⟨last, name, parts, _, start, ended, named, rfl, components, before,
    equations_writesAll _ made, after, ?_⟩
  intro s has k a k' side same others
  obtain ⟨_, _, -, side⟩ := exists_of_bind side
  obtain ⟨x, _, found, side⟩ := exists_of_bind side
  cases side
  obtain ⟨found, rfl⟩ := componentOf_eq found
  obtain ⟨y, part, there⟩ := exists_mem_of_forall₂ components has
  obtain rfl : a = y := Option.some.inj (found.symm.trans (same.trans there))
  obtain ⟨first, rest, listed, -⟩ := List.lookup_eq_some_iff.1 there
  obtain ⟨i, mark⟩ := Option.ne_none_iff_exists'.1 (last (s, a) (by simp [listed]))
  exact withoutAll_of_mark others mark (List.mem_filterMap.2 ⟨a, part, mark⟩)

-- A class with the declaration `Boolean x = true`.
def valued : Library where
  classes := #[{ name := some "M", symbols := ⟨[("x", ⟨0⟩)]⟩, origin := ⟨0⟩
                 equations := [.simple (.component ⟨0⟩) (.literal (.bool true)) ""] }]
  symbols := #[{ name := "x", type := .named (.simple "Boolean") }]

def valuedContext : Context := ⟨valued, visit valued 9⟩

theorem valued_writes : ∃ parts start ended, WritesAll valuedContext (List.filterMap Element.mark parts)
    (valued.classOf ⟨0⟩).equations start [.mk "equal" [] [.mk "real" [("value", "True")] [] none] none] ended := by
  obtain ⟨-, _, parts, rows, start, ended, -, -, -, before, writes, -, taken⟩ :=
    classElement_writes valued 9 (valued.classOf ⟨0⟩) {} _ _ (fun _ none => nomatch none) rfl
  obtain ⟨k, row, rest, rfl, ⟨a, k', b, left, right, rfl⟩, rfl, rfl⟩ := writes
  have lost := taken ⟨0⟩ (by decide) _ _ _ left (by cases before; cases left; rfl)
  obtain rfl : b = .mk "real" [("value", "True")] [] none := by
    cases right
    rfl
  refine ⟨parts, start, _, _, _, _, rfl, ⟨a, k', _, left, right, ?_⟩, rfl, rfl⟩
  rw [lost]
  rfl

-- The left side of the equation for the value is lost.
theorem valued_left_side_lost : ∃ n x, classElement valuedContext (valued.classOf ⟨0⟩) {} = .ok
    (.mk "classDefinition" [("name", "M")] [.mk "class" [("kind", "model")] [x, .mk "equation" []
      [.mk "equal" [] [.mk "real" [("value", "True")] [] none] none] none] none] none, n) :=
  ⟨_, _, rfl⟩

end Modelica.Xml
