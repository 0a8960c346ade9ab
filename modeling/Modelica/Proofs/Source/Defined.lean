import Modelica.Proofs.Source.Manner
import Modelica.Proofs.Source.ModelText
import Modelica.Proofs.Source.Writable

set_option autoImplicit false

namespace Modelica

open Build

namespace Define

structure Stands (lib : Library) (c : ClassId) (name : String) (es : List Equation) : Prop where
  known : c.index < lib.classes.size
  named : (lib.classOf c).name = some name
  equations : (lib.classOf c).equations = es
  childless : (lib.classOf c).classes = .empty

theorem Stands.modifyClass {lib : Library} {c : ClassId} {name : String} {es : List Equation}
    (stands : Stands lib c name es) (d : ClassId) (f : ClassDef → ClassDef)
    (same : d = c → ∀ e, (f e).name = e.name ∧ (f e).equations = e.equations ∧ (f e).classes = e.classes) :
    Stands (lib.modifyClass d f) c name es := by
  by_cases here : d = c
  · subst here
    obtain ⟨n, e, k⟩ := same rfl (lib.classOf d)
    have changed := lib.classOf_modifyClass_self d f stands.known
    exact ⟨by simpa using stands.known, by rw [changed, n, stands.named],
      by rw [changed, e, stands.equations], by rw [changed, k, stands.childless]⟩
  · have same := lib.classOf_modifyClass_ne d c f here
    exact ⟨by simpa using stands.known, by rw [same, stands.named],
      by rw [same, stands.equations], by rw [same, stands.childless]⟩

theorem composition_run (ss : List Source.Equation) (es : List Equation)
    (means : Define.equations ss = pure es) (r : Define.Reading) :
    Define.composition (.mk [] [.equations false ss] none none) r = (do
        updateClass (r.classes.head?.getD ⟨0⟩) fun d =>
          { d with equations := d.equations ++ es, initialEquations := d.initialEquations ++ [] }
        updateClass (r.classes.head?.getD ⟨0⟩) fun d =>
          { d with
            constraints := d.constraints ++ []
            statements := d.statements ++ []
            initialStatements := d.initialStatements ++ []
            annotated := none }
        pure ((), r)) := by
  simp only [Define.composition, Define.elements, Define.sections, means, pure_bind,
    Bool.false_eq_true, if_false, Define.externalClause, Define.optionalModification]
  rfl

theorem classDefinition_run (name : String) (ss : List Source.Equation) (es : List Equation)
    (means : Define.equations ss = pure es) (lib : Library) (base : ClassId)
    (known : base.In lib) :
    Build.Returns (Define.classDefinition (Source.modelOf name ss) { classes := [base] }) lib
      fun p next => p = (lib.nextClass, { classes := [base] }) ∧
        next.classes.size = lib.classes.size + 1 ∧ Stands next lib.nextClass name es := by
  unfold Returns
  simp only [ensures_bind, ensures_addClass, Define.classDefinition, Define.optionalModification,
    ensures_read_bind, ensures_read_pure, ensures_read_lift, ensures_read_modify,
    ensures_read_currentClass, composition_run ss es means, ensures_pure, ensures_updateClass,
    List.tail_cons, List.head?_cons, Option.getD_some, ensures_classOf]
  refine ⟨trivial, by simp, ?_⟩
  refine Stands.modifyClass ?_ base _ fun same => ?_
  · refine ⟨by simp [Library.nextClass], ?_, ?_, ?_⟩ <;>
      rw [Library.classOf_modifyClass_self _ _ _ (by simp [Library.nextClass]),
        Library.classOf_modifyClass_self _ _ _ (by simp [Library.nextClass]),
        Library.classOf_modifyClass_self _ _ _ (by simp [Library.nextClass]),
        Library.classOf_pushClass_self]
    rfl
  · subst same
    exact absurd known (lt_irrefl _)

theorem linkParents_childless (fuel : Nat) (lib : Library) (c : ClassId)
    (childless : (lib.classOf c).classes = .empty) :
    (linkParents (fuel + 1) c).Returns lib fun _ next => next = lib := by
  unfold Returns
  rw [linkParents]
  simp only [ensures_bind, ensures_classOf, childless]
  simp [OrderedMap.values]

theorem linkParents_single (fuel : Nat) (lib : Library) (root c : ClassId)
    (inside : (lib.classOf root).classes.values = [c]) (known : c.In lib)
    (childless : (lib.classOf c).classes = .empty) :
    (linkParents (fuel + 2) root).Returns lib fun _ next =>
      next = lib.modifyClass c fun d => { d with parent := some root } := by
  have still : ((lib.modifyClass c fun d => { d with parent := some root }).classOf c).classes = .empty := by
    rw [lib.classOf_modifyClass_self c _ known, childless]
  unfold Returns
  rw [linkParents]
  simp only [ensures_bind, ensures_classOf, inside, List.forIn_cons, List.forIn_nil, ensures_updateClass]
  refine (linkParents_childless fuel _ c still).mono ?_
  rintro _ _ rfl
  simp only [ensures_pure]

theorem storedDefinition_run (name : String) (ss : List Source.Equation) (es : List Equation)
    (means : Define.equations ss = pure es) (lib : Library) :
    (Define.storedDefinition ⟨none, [⟨false, Source.modelOf name ss⟩]⟩).Returns lib fun root next =>
        ∃ c, next.findClass? root [name] = some c ∧ (next.classOf c).equations = es := by
  unfold Returns Define.storedDefinition
  simp only [ensures_bind, ensures_addClass, storedClasses, StateT.run,
    ensures_read_bind, ensures_read_pure, ensures_read_lift, ensures_pure, ensures_updateClass,
    ensures_classOf, packages, ensures_get]
  refine (classDefinition_run name ss es means _ lib.nextClass (by simp [Library.nextClass])).mono ?_
  rintro p now ⟨rfl, _, stands⟩
  generalize (lib.pushClass _).nextClass = c at stands ⊢
  have stands := stands.modifyClass c (fun d => { d with final := false }) fun _ _ => ⟨rfl, rfl, rfl⟩
  dsimp only
  rw [stands.named]
  generalize now.modifyClass c _ = done at stands ⊢
  -- the root comes last, so it is not the class
  have apart : done.nextClass ≠ c := by
    rintro rfl
    exact lt_irrefl _ stands.known
  generalize rootIs : done.nextClass = root at apart ⊢
  generalize entered : (done.pushClass _).modifyClass root _ = whole
  have known : root.index < (done.pushClass { role := .root, origin := root }).classes.size := by
    simp [← rootIs, Library.nextClass]
  have top : whole.classOf root =
      { role := .root, origin := root, classes := OrderedMap.empty.insert (some name) c } := by
    rw [← entered, Library.classOf_modifyClass_self _ _ _ known, ← rootIs, Library.classOf_pushClass_self]
    rfl
  have below : Stands whole c name es := by
    have kept : (done.pushClass { role := .root, origin := root }).classOf c = done.classOf c :=
      done.classOf_pushClass_ne c _ stands.known.ne
    rw [← entered]
    refine Stands.modifyClass ⟨?_, ?_, ?_, ?_⟩ root _ fun same => absurd same apart
    · rw [Library.classes_size_pushClass]
      exact Nat.lt_succ_of_lt stands.known
    · rw [kept, stands.named]
    · rw [kept, stands.equations]
    · rw [kept, stands.childless]
  obtain ⟨k, size⟩ : ∃ k, whole.classes.size + 1 = k + 2 := ⟨whole.classes.size - 1, by have := below.known; omega⟩
  rw [size]
  refine (linkParents_single k whole root c (by rw [top]; rfl) below.known below.childless).mono ?_
  rintro _ next rfl
  have topAfter := whole.classOf_modifyClass_ne c root (fun d => { d with parent := some root }) apart.symm
  refine ⟨c, ?_, ?_⟩
  · simp only [Library.findClass?_scan, Library.enclosing, Library.chain, topAfter, top,
      List.findSome?_cons, Library.descend, OrderedMap.find?_insert_self]
  · rw [whole.classOf_modifyClass_self c _ below.known]
    exact below.equations

end Define

-- Every expression that can be written has a text, and a model whose equations are written as such texts is
-- defined with just these equations.
theorem define_printedEquations (name : String) (isName : Word.IsName name) :
    (∀ e : Expr, e.Writable → ∃ ws, Printed (.whole e) ws) ∧
      ∀ (es : List Equation) (ws : List Word), PrintedEquations es ws → ∀ lib : Library,
        ∃ root next c, define (Word.line (modelWords name ws)) lib = .ok root next ∧
          next.findClass? root [name] = some c ∧ (next.classOf c).equations = es := by
  refine ⟨fun e writable => ?_, fun es ws printed lib => ?_⟩
  · obtain ⟨ws, primary⟩ := writable.printed
    exact ⟨ws, .simple (.bare primary)⟩
  · obtain ⟨ss, means, read⟩ := read_model name isName printed
    obtain ⟨root, next, ran, c, found, same⟩ :=
      (Define.storedDefinition_run name ss es means lib).exists
    refine ⟨root, next, c, ?_, found, same⟩
    rw [define, read]
    exact ran

-- A comparison under `not`, a power under a minus, a call, brackets that are needed and subscripts in the
-- middle of a name.
theorem define_printedEquations_mixed :
    ∃ root next c, define ("model M equation y = if not a < b and c then - x ^ 2 + f ( 1 , \"s\" ) " ++
        "else ( 1 - v [ i , : ] . w ) * der ( x ) ; end M ;") {} = .ok root next ∧
      next.findClass? root ["M"] = some c ∧ (next.classOf c).equations =
        [.simple (.ref (.simple "y")) (.conditional
          [.apply (.named "and") [.apply (.named "not")
            [.apply (.named "<") [.ref (.simple "a"), .ref (.simple "b")]], .ref (.simple "c")]]
          [.apply (.named "+") [.apply (.named "-")
              [.apply (.named "^") [.ref (.simple "x"), .integer 2]],
            .apply (.function (.simple "f")) [.integer 1, .literal (.string "s")]],
          .apply (.named "*") [.apply (.named "-") [.integer 1,
              .ref (.mk "v" [some [.ref (.simple "i"), .everything]] (some (.simple "w")))],
            .apply (.named "der") [.ref (.simple "x")]]]) ""] := by
  have name (s : String) (isName : Word.IsName s) :
      Printed (.primary (.ref (.simple s))) [.name s] :=
    .ref (.lastPart (.plainPart isName))
  have one : Printed (.primary (.integer 1)) [.number "1"] :=
    .number (.integer "1" (by decide +kernel) (by decide +kernel) (by decide +kernel))
  have two : Printed (.primary (.integer 2)) [.number "2"] :=
    .number (.integer "2" (by decide +kernel) (by decide +kernel) (by decide +kernel))
  have comparison : Printed (.operand 4 _) _ := .binary
    (show Phrase.level? .less = some 5 from rfl) (by decide) (.bare (name "a" (by decide +kernel)))
    (.bare (name "b" (by decide +kernel)))
  have condition := Printed.binary (show Phrase.level? .and_ = some 3 from rfl) (Nat.zero_le 3)
    (.not_ (by decide) comparison) (.bare (name "c" (by decide +kernel)))
  have power : Printed (.operand 9 _) _ := .power (.inl rfl) (name "x" (by decide +kernel)) two
  have call := Printed.call (f := .simple "f") (.lastPart (.plainPart (by decide +kernel)))
    (.items (.simple (.bare one))
      (.item (.simple (.bare (.string (s := "s") (by decide +kernel)))) .noItem))
  have sum := Printed.binary (show Phrase.level? .plus = some 6 from rfl) (Nat.zero_le 6)
    (.neg power) (.bare call)
  have inside := Printed.subscripts (.index (.simple (.bare (name "i" (by decide +kernel)))))
    (.nextSubscript .allOf .noSubscript)
  have slice := Printed.ref (.dotted (.subscriptedPart (s := "v") (by decide +kernel) inside)
    (.lastPart (.plainPart (s := "w") (by decide +kernel))))
  have difference := Printed.binary (show Phrase.level? .minus = some 6 from rfl) (Nat.zero_le 6)
    (.bare one) (.bare slice)
  have product := Printed.binary (show Phrase.level? .star = some 7 from rfl) (Nat.zero_le 7)
    (.bare (.paren (.simple difference)))
    (.bare (.der (.items (.simple (.bare (name "x" (by decide +kernel)))) .noItem)))
  have value := Printed.conditional (.simple condition) (.simple sum) .noBranch (.simple product)
  have equations := PrintedEquations.next (.bare (name "y" (by decide +kernel))) value .done
  obtain ⟨root, next, c, ran, found, same⟩ :=
    (define_printedEquations "M" (by decide +kernel)).2 _ _ equations {}
  refine ⟨root, next, c, Eq.trans (congrArg (define · {}) ?_) ran, found, same⟩
  decide +kernel

theorem error_of_read (text : String) (p : Position)
    (fails : (match Source.read text with | .error q => some q | .ok _ => none) = some p)
    (lib : Library) : define text lib = .error (.malformed p) lib := by
  unfold define
  split at fails
  · next q read =>
    rw [read, Option.some.inj fails]
    rfl
  · cases fails

-- A string that ends in a backslash goes on to the quote that opens the next one.
theorem define_backslash_at_end :
    define (Word.line (modelWords "M" [.name "y", .sign .equals, .name "f", .sign .leftParen,
      .string "a\\\\", .sign .comma, .string "b", .sign .rightParen, .sign .semicolon])) {} =
        .error (.malformed ⟨1, 34⟩) {} :=
  error_of_read _ _ (by decide +kernel) {}

end Modelica
