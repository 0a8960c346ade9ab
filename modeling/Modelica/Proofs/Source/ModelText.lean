import Modelica.Proofs.Source.RoundTrip

set_option autoImplicit false

namespace Modelica

open Source.Parser

inductive PrintedEquations : List Equation → List Word → Prop
  | done : PrintedEquations [] []
  | next {l r : Expr} {es : List Equation} {ws vs us : List Word}
      (left : Printed (.operand 0 l) ws) (right : Printed (.whole r) vs)
      (more : PrintedEquations es us) :
      PrintedEquations (.simple l r "" :: es)
        (ws ++ .sign .equals :: (vs ++ .sign .semicolon :: us))

def modelWords (name : String) (ws : List Word) : List Word :=
  .sign .model :: .name name :: .sign .equation ::
    (ws ++ [.sign .end_, .name name, .sign .semicolon])

abbrev Source.modelOf (name : String) (es : List Source.Equation) : Source.ClassDefinition :=
  .mk false false "model" (.long name none "" (.mk [] [.equations false es] none none))

namespace Source.Parser

variable (n : Nat) (ts rest : List Token)

theorem run_comment (noString : nextKind ts ≠ .string) (noNote : nextKind ts ≠ .terminal .annotation_) :
    comment (n + 2) ts = .ok (.mk "" none, ts) := by
  have text : stringComment (n + 1) ts = .ok ("", ts) := by
    rw [stringComment, run_bind (run_peek ts)]
    simp [noString]
  have note : annotated (n + 1) ts = .ok (none, ts) := by
    rw [annotated, after, run_bind (run_accept_not ts _ noNote)]
    rfl
  rw [comment, run_bind text, run_bind note]
  rfl

theorem equation_read (l r : Expr) (t u : Token) (second : List Token)
    (first : ∀ k ∈ [Terminal.if_, .for_, .connect, .when, .dot], nextKind ts ≠ .terminal k)
    (left : simpleExpression (n + 2) ts = .ok (l, t :: second)) (isEquals : t.kind = .terminal .equals)
    (right : expression (n + 2) second = .ok (r, u :: rest)) (isEnd : u.kind = .terminal .semicolon) :
    equation (n + 4) ts = .ok (.mk (.simple l r) (.mk "" none), rest) := by
  have body : equationBody (n + 3) ts = .ok (.simple l r, u :: rest) := by
    rw [equationBody, run_bind (run_accept_not ts .if_ (first _ (by simp)))]
    show (accept .for_ >>= _) ts = _
    rw [run_bind (run_accept_not ts .for_ (first _ (by simp)))]
    show (accept .connect >>= _) ts = _
    rw [run_bind (run_accept_not ts .connect (first _ (by simp)))]
    show (accept .when >>= _) ts = _
    rw [run_bind (run_accept_not ts .when (first _ (by simp)))]
    show (sees .dot >>= _) ts = _
    rw [run_bind (run_sees ts .dot)]
    simp only [first .dot (by simp), decide_false, Bool.false_eq_true, if_false]
    rw [run_bind left, run_bind (run_accept second .equals t isEquals)]
    show (expression (n + 2) >>= _) second = _
    rw [run_bind right]
    rfl
  have note := run_comment (n + 1) (u :: rest) (by simp [isEnd]) (by simp [isEnd])
  rw [equation, run_bind body, run_bind note, run_bind (run_expect rest .semicolon u isEnd)]
  rfl

theorem run_peekAt (k : Nat) : peekAt k ts = .ok (nextKind (ts.drop k), ts) := by
  have same : (ts.drop k)[0]? = ts[k]? := by rw [List.getElem?_drop, Nat.add_zero]
  cases here : ts[k]? <;> simp only [peekAt, nextKind, same, here]

theorem startsEquation_operand (w : Word) (opens : w.opens [.minus, .not_] = true)
    (next : nextKind ts = w.kind) : startsEquation ts = .ok (true, ts) := by
  rw [startsEquation, run_bind (run_peekAt ts 1), run_bind (run_peek ts), next]
  cases w with
  | name | number | string => rfl
  | sign t =>
    simp only [Word.opens, List.mem_cons, List.not_mem_nil, or_false, decide_eq_true_eq] at opens
    obtain rfl | rfl | rfl | rfl | rfl | rfl | rfl := opens <;> rfl

theorem startsEquation_end (t u : Token) (isEnd : t.kind = .terminal .end_) (isName : u.kind = .ident) :
    startsEquation (t :: u :: ts) = .ok (false, t :: u :: ts) := by
  rw [startsEquation, run_bind (run_peekAt _ 1), run_bind (run_peek _)]
  simp only [List.drop_succ_cons, List.drop_zero, nextKind_cons, isEnd, isName]
  rfl

theorem elements_none (other : startsElement (nextKind ts) = false) : elements (n + 2) ts = .ok ([], ts) := by
  rw [elements, manyWhile, bind_assoc, run_bind (run_peek ts), other]
  rfl

theorem composition_equations (es : List Equation) (t u : Token) (isEquation : t.kind = .terminal .equation)
    (isEnd : u.kind = .terminal .end_) (read : equations (n + 2) ts = .ok (es, u :: rest)) :
    composition (n + 4) (t :: ts) = .ok (.mk [] [.equations false es] none none, u :: rest) := by
  have leading := elements_none (n + 1) (t :: ts) (by rw [nextKind_cons, isEquation]; rfl)
  have body : bodySection (n + 3) (t :: ts) = .ok (.equations false es, u :: rest) := by
    rw [bodySection, run_bind (run_accept_not (t :: ts) .public_ (by simp [isEquation]))]
    show (accept .protected_ >>= _) (t :: ts) = _
    rw [run_bind (run_accept_not (t :: ts) .protected_ (by simp [isEquation]))]
    show (accept .initial >>= _) (t :: ts) = _
    rw [run_bind (run_accept_not (t :: ts) .initial (by simp [isEquation])),
      run_bind (run_accept ts .equation t isEquation)]
    show (equations (n + 2) >>= _) ts = _
    rw [run_bind read]
    rfl
  have one : manyWhile startsSection (bodySection (n + 3)) (n + 3) (t :: ts) =
      .ok ([.equations false es], u :: rest) := by
    have here : startsSection (t :: ts) = .ok (true, t :: ts) := by
      rw [startsSection, run_bind (run_peek _), nextKind_cons, isEquation]
      rfl
    have stop : startsSection (u :: rest) = .ok (false, u :: rest) := by
      rw [startsSection, run_bind (run_peek _), nextKind_cons, isEnd]
      rfl
    exact manyWhile_next (n + 2) _ _ _ _ _ _ _ _ here body (manyWhile_none (n + 1) _ _ _ _ stop)
  have external : after .external (externalClause (n + 3)) (u :: rest) = .ok (none, u :: rest) := by
    rw [after, run_bind (run_accept_not (u :: rest) _ (by simp [isEnd]))]
    rfl
  rw [composition, run_bind leading, run_bind one, run_bind external, run_bind (run_sees (u :: rest) .annotation_)]
  simp [isEnd]

theorem storedDefinition_model (es : List Equation) (m a q e b s f : Token)
    (isModel : m.kind = .terminal .model) (isName : a.kind = .ident)
    (isEquation : q.kind = .terminal .equation) (isEnd : e.kind = .terminal .end_)
    (isName' : b.kind = .ident) (isOver : s.kind = .terminal .semicolon) (isFile : f.kind = .eof)
    (read : equations (n + 2) ts = .ok (es, e :: b :: s :: [f])) :
    storedDefinition (n + 6) (m :: a :: q :: ts) = .ok (⟨none, [⟨false, modelOf a.text es⟩]⟩, [f]) := by
  have specifier : classSpecifier (n + 5) (a :: q :: ts) =
      .ok (.long a.text none "" (.mk [] [.equations false es] none none), s :: [f]) := by
    have change : opening .leftParen (classModification (n + 4)) (q :: ts) = .ok (none, q :: ts) := by
      rw [opening, run_bind (run_sees _ _)]
      simp [isEquation]
    have note : stringComment (n + 4) (q :: ts) = .ok ("", q :: ts) := by
      rw [stringComment, run_bind (run_peek _)]
      simp [isEquation]
    have last : endName (e :: b :: s :: [f]) = .ok ((), s :: [f]) := by
      rw [endName, run_bind (run_expect (b :: s :: [f]) .end_ e isEnd), run_bind (run_ident (s :: [f]) b isName')]
      rfl
    rw [classSpecifier, run_bind (run_accept_not (a :: q :: ts) .extends_ (by simp [isName]))]
    show (ident >>= _) (a :: q :: ts) = _
    rw [run_bind (run_ident (q :: ts) a isName), run_bind (run_accept_not (q :: ts) .equals (by simp [isEquation]))]
    show (opening .leftParen (classModification (n + 4)) >>= _) (q :: ts) = _
    rw [run_bind change, run_bind note,
      run_bind (composition_equations n ts (b :: s :: [f]) es q e isEquation isEnd read),
      run_bind last]
    rfl
  have word : classType (m :: a :: q :: ts) = .ok ("model", a :: q :: ts) := by
    rw [classType, run_bind (run_peek _), nextKind_cons, isModel]
    rfl
  have definition : classDefinition (n + 6) (m :: a :: q :: ts) = .ok (modelOf a.text es, s :: [f]) := by
    rw [classDefinition, run_bind (run_accept_not (m :: a :: q :: ts) .encapsulated (by simp [isModel])),
      run_bind (run_accept_not (m :: a :: q :: ts) .partial_ (by simp [isModel])),
      run_bind word, run_bind specifier]
    rfl
  have stored : storedClass (n + 6) (m :: a :: q :: ts) = .ok (⟨false, modelOf a.text es⟩, [f]) := by
    rw [storedClass, run_bind (run_accept_not (m :: a :: q :: ts) .final (by simp [isModel])),
      run_bind definition, run_bind (run_expect [f] .semicolon s isOver)]
    rfl
  have all : manyWhile startsStoredClass (storedClass (n + 6)) (n + 6) (m :: a :: q :: ts) =
      .ok ([⟨false, modelOf a.text es⟩], [f]) := by
    have here : startsStoredClass (m :: a :: q :: ts) = .ok (true, m :: a :: q :: ts) := by
      rw [startsStoredClass, run_bind (run_peek _), nextKind_cons, isModel]
      rfl
    have stop : startsStoredClass [f] = .ok (false, [f]) := by
      rw [startsStoredClass, run_bind (run_peek _), nextKind_cons, isFile]
      rfl
    exact manyWhile_next (n + 5) _ _ _ _ _ _ _ _ here stored (manyWhile_none (n + 4) _ _ _ _ stop)
  rw [storedDefinition, run_bind (run_accept_not (m :: a :: q :: ts) .within (by simp [isModel]))]
  show ((pure none : Parse (Option Reference)) >>= _) (m :: a :: q :: ts) = _
  rw [run_bind (run_pure _ _)]
  show (manyWhile startsStoredClass (storedClass (n + 6)) (n + 6) >>= _) (m :: a :: q :: ts) = _
  rw [run_bind all]
  rfl

end Source.Parser

namespace PrintedEquations

variable {es : List Equation} {ws : List Word}

theorem inner (printed : PrintedEquations es ws) : ∀ w ∈ ws, w.Proper := by
  induction printed with
  | done => simp
  | next left right _ ih =>
    have first := fun w member => (left.inner w member).1
    have second := fun w member => (right.inner w member).1
    grind [Word.Proper]

theorem reads (printed : PrintedEquations es ws) : ∃ ss, Define.equations ss = pure es ∧
    ∀ p t u rest k m, t.kind = .terminal .end_ → u.kind = .ident → 8 * ws.length + 8 ≤ k → ws.length + 1 ≤ m →
      manyWhile startsEquation (Source.Parser.equation k) m (Word.tokensFrom p ws ++ t :: u :: rest) =
        .ok (ss, t :: u :: rest) := by
  induction printed with
  | done =>
    refine ⟨[], rfl, ?_⟩
    intro p t u rest k m isEnd isName _ enough
    obtain ⟨j, rfl⟩ : ∃ j, m = j + 1 := ⟨m - 1, by simp at enough; omega⟩
    exact manyWhile_none j _ _ _ _ (startsEquation_end rest t u isEnd isName)
  | @next l r es ws vs us left right more ih =>
    obtain ⟨ss, means, more⟩ := ih
    obtain ⟨sl, meansLeft, readLeft⟩ := left.reads.alone
    obtain ⟨sr, meansRight, readRight⟩ := right.reads
    refine ⟨.mk (.simple sl sr) (.mk "" none) :: ss, ?_, ?_⟩
    · have first : Define.equation (.mk (.simple sl sr) (.mk "" none)) = pure (.simple l r "") := by
        have note : Define.comment (.mk "" none) = pure "" := by
          simp only [Define.comment]
          rfl
        simp only [Define.equation, meansLeft, meansRight, Define.ofExcept, pure_bind, note]
      simp only [Define.equations, first, means, pure_bind]
    · intro p t u rest k m isEnd isName deep enough
      simp only [List.length_append, List.length_cons] at deep enough
      obtain _ | j := m
      · omega
      obtain ⟨i, rfl⟩ : ∃ i, k = i + 4 := ⟨k - 4, by omega⟩
      simp only [Word.tokensFrom_cons, Word.tokensFrom_append, List.append_assoc, List.cons_append]
      -- an operand starts none of the other equations
      have start : ∀ ts, ∃ w : Word, w.opens [.minus, .not_] = true ∧
          nextKind (Word.tokensFrom p ws ++ ts) = w.kind := left.nextKind_start rfl p
      have other : ∀ ts, ∀ t ∈ [Terminal.if_, .for_, .connect, .when, .dot],
          nextKind (Word.tokensFrom p ws ++ ts) ≠ .terminal t := by
        intro ts t member
        obtain ⟨w, opens, same⟩ := start ts
        rw [same]
        refine w.kind_ne_of_opens opens t ?_
        simp only [List.mem_cons, List.not_mem_nil, or_false] at member
        obtain rfl | rfl | rfl | rfl | rfl := member <;> decide
      have ready : ∀ ts, startsEquation (Word.tokensFrom p ws ++ ts) = .ok (true, Word.tokensFrom p ws ++ ts) := by
        intro ts
        obtain ⟨w, opens, same⟩ := start ts
        exact startsEquation_operand _ w opens same
      exact manyWhile_next j _ _ _ _ _ _ _ _ (ready _)
        (equation_read i _ _ sl sr _ _ _ (other _) (readLeft p _ (i + 2) rfl (by omega)) rfl
          (readRight _ _ (i + 2) rfl (by omega)) rfl)
        (more _ t u rest (i + 4) j isEnd isName (by omega) (by omega))

end PrintedEquations

theorem read_model (name : String) (isName : Word.IsName name) {es : List Equation} {ws : List Word}
    (printed : PrintedEquations es ws) : ∃ ss, Define.equations ss = pure es ∧
      Source.read (Word.line (modelWords name ws)) = .ok ⟨none, [⟨false, Source.modelOf name ss⟩]⟩ := by
  obtain ⟨ss, means, read⟩ := printed.reads
  refine ⟨ss, means, ?_⟩
  have proper : ∀ w ∈ modelWords name ws, w.Proper := by
    have inner := printed.inner
    have named : (Word.name name).Proper := isName
    grind [modelWords, Word.Proper]
  obtain ⟨p, tokens⟩ := Word.tokens_line _ proper
  have plain : ((Lexer.tokens (Word.line (modelWords name ws))).filter fun t => t.kind ≠ .comment) =
      Word.tokensFrom .start (modelWords name ws) ++ [⟨.eof, "<EOF>", p⟩] := by
    rw [tokens]
    refine List.filter_eq_self.2 fun t member => ?_
    obtain inside | last := List.mem_append.1 member
    · simpa using Word.kind_of_mem_tokensFrom _ _ t inside
    · obtain rfl : t = _ := List.mem_singleton.1 last
      rfl
  have fuel : ∃ n, Source.fuelFor (Word.tokensFrom .start (modelWords name ws) ++
      [⟨.eof, "<EOF>", p⟩]) = n + 6 ∧ 8 * ws.length + 8 ≤ n + 1 ∧ ws.length + 1 ≤ n + 1 := by
    refine ⟨16 * (ws.length + 8) - 6, ?_, by omega, by omega⟩
    simp only [Source.fuelFor, List.length_append, Word.length_tokensFrom, modelWords,
      List.length_cons, List.length_nil]
    omega
  obtain ⟨n, fuel, deep, enough⟩ := fuel
  have stored : storedDefinition (n + 6) (Word.tokensFrom .start (modelWords name ws) ++ [⟨.eof, "<EOF>", p⟩]) =
        .ok (⟨none, [⟨false, Source.modelOf name ss⟩]⟩, [⟨.eof, "<EOF>", p⟩]) := by
    simp only [modelWords, Word.tokensFrom_cons, Word.tokensFrom_append, Word.tokensFrom_nil,
      List.append_assoc, List.cons_append, List.nil_append]
    exact storedDefinition_model n _ ss _ _ _ _ _ _ _ rfl rfl rfl rfl rfl rfl rfl
      (read _ _ _ _ (n + 1) (n + 1) rfl rfl deep enough)
  have faultless (stop : Option Position) : Source.firstFault (Word.line (modelWords name ws)) stop = none := by
    simp [Source.firstFault, Word.faults_line _ proper]
  simp only [Source.read, plain, fuel, stored, faultless]

end Modelica
