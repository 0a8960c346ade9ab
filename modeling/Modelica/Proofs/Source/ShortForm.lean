import Modelica.Proofs.Source.Manner

set_option autoImplicit false

namespace Modelica

namespace Define

open Build Library Manner

variable {α β : Type}

-- The part is read alike inside and outside an extends clause, and reading it adds modifications only.
def Calm (x : Read α) : Prop :=
  ∀ (r : Reading) (lib : Library), (∃ a count target modifications arguments, (r.target = .none ∨ target = r.target) ∧
    ∀ b, x { r with inExtends := b } lib = .ok (a, { r with count := count, target := target, inExtends := b })
      { lib with modifications := modifications, arguments := arguments }) ∨
    ∃ e next, ∀ b, x { r with inExtends := b } lib = .error e next

section

variable {x : Read α} {f : α → Read β}

theorem Calm.bind (first : Calm x) (second : ∀ a, Calm (f a)) : Calm (x >>= f) := by
  intro r lib
  have unfolded : ∀ b, (x >>= f) { r with inExtends := b } lib =
    EStateM.bind (x { r with inExtends := b }) (fun p => f p.1 p.2) lib := fun _ => rfl
  simp only [unfolded, EStateM.bind]
  obtain ⟨a, n, t, ms, as, stays, run⟩ | ⟨e, next, run⟩ := first r lib
  · simp only [run]
    obtain ⟨a', n', t', ms', as', stays', run'⟩ | ⟨e, next, run'⟩ := second a { r with count := n, target := t }
      { lib with modifications := ms, arguments := as }
    · refine .inl ⟨a', n', t', ms', as', ?_, run'⟩
      obtain none | rfl := stays
      · exact .inl none
      · exact stays'
    · exact .inr ⟨e, next, run'⟩
  · simp only [run]
    exact .inr ⟨e, next, fun _ => rfl⟩

theorem run_step {r r' : Reading} {lib now : Library} {a : α} (run : x r lib = .ok (a, r') now) :
    (x >>= f) r lib = f a r' now := by
  show EStateM.bind (x r) (fun p => f p.1 p.2) lib = _
  rw [EStateM.bind, run]

theorem run_fail {r : Reading} {lib now : Library} {e : Error} (run : x r lib = .error e now) :
    (x >>= f) r lib = .error e now := by
  show EStateM.bind (x r) (fun p => f p.1 p.2) lib = _
  rw [EStateM.bind, run]

end

def calm : Manner where
  holds plain _ x := plain = true → Calm x
  pure a _ r lib := .inl ⟨a, r.count, r.target, lib.modifications, lib.arguments, .inr rfl, fun _ => rfl⟩
  throw e _ _ lib := .inr ⟨e, lib, fun _ => rfl⟩
  bind first second is := (first is).bind fun a => second a is
  weaken _ no := Bool.noConfusion no
  addModification as _ r lib := .inl ⟨_, r.count, r.target, _, _, .inr rfl, fun _ => rfl⟩
  addArgument v scope redeclare _ r lib := .inl ⟨_, r.count, r.target, _, _, .inr rfl, fun _ => rfl⟩
  enterElementModification _ r lib := by
    obtain ⟨count, target, clauses, classes, inExtends⟩ := r
    cases target with
    | none => exact .inl ⟨(), count + 1, .scratch, _, _, .inl rfl, fun _ => rfl⟩
    | scratch => exact .inl ⟨(), count, .scratch, _, _, .inr rfl, fun _ => rfl⟩
    | symbol id => exact .inl ⟨(), count, .symbol id, _, _, .inr rfl, fun _ => rfl⟩
  look _ no := Bool.noConfusion no
  updateModification _ _ no := Bool.noConfusion no
  updateSymbol _ _ _ no := Bool.noConfusion no
  updateClass _ _ _ no := Bool.noConfusion no
  leaveSymbol no := Bool.noConfusion no
  inExtends _ no := Bool.noConfusion no
  enterClause _ _ no := Bool.noConfusion no
  enterSymbol no := Bool.noConfusion no

theorem modify_push_size {α : Type*} (xs : Array α) (x : α) (f : α → α) :
    (xs.push x).modify xs.size f = xs.push (f x) := by
  apply Array.ext'
  rw [Array.toList_modify, Array.toList_push, Array.toList_push, List.modify_eq_take_cons_drop (by simp)]
  simp

-- A class that is defined by its base class alone is read just as one whose body is an extends clause, unless a
-- component is declared in the modifications of the base class.
theorem classDefinition_base_eq_long (encapsulated isPartial : Bool) (type name text : String) (base : Source.Reference)
    (change : Option Source.ClassModification)
    (plain : ∀ as ∈ change, Source.ModificationArgument.allPlain as = true) (r : Reading)
    (outside : r.inExtends = false) (lib : Library) :
    classDefinition (.mk encapsulated isPartial type (.base name base change (.mk text none))) r lib =
      classDefinition (.mk encapsulated isPartial type
        (.long name none text (.mk [.extends_ base change none] [] none none))) r lib := by
  have calmly : Calm (optionalModification change) := by
    refine optionalModification_holds calm change ?_
    cases change with
    | none => rfl
    | some as => exact plain as rfl
  obtain ⟨count, target, clauses, classes, inExtends⟩ := r
  cases outside
  unfold classDefinition composition
  iterate 2 refine Eq.trans (run_step (by rfl)) ?_
  symm
  iterate 3 refine Eq.trans (run_step (by rfl)) ?_
  simp only [elements, element, sections, comment, bind_assoc, pure_bind]
  cases reference base with
  | error e => rfl
  | ok b =>
    -- Both forms now read the modification, one of them as in an extends clause.
    refine Eq.trans (run_step (by rfl)) (Eq.trans (run_step (by rfl)) ?_)
    symm
    refine Eq.trans (run_step (by rfl)) ?_
    obtain ⟨o, n, t, ms, as, -, run⟩ | ⟨e, next, run⟩ := calmly
      ⟨count, target, clauses, lib.nextClass :: classes, false⟩
      (lib.pushClass { encapsulated := encapsulated, isPartial := isPartial, type := type, origin := lib.nextClass })
    · refine Eq.trans (run_step (run false)) ?_
      symm
      refine Eq.trans (run_step (run true)) ?_
      cases o
      all_goals
        simp only [bind_assoc, pure_bind]
        iterate 14 refine Eq.trans (run_step (by rfl)) ?_
      on_goal 1 => refine Eq.trans (run_step (by rfl)) ?_
      all_goals
        symm
        refine Eq.trans (run_step (by rfl)) ?_
      on_goal 1 => refine Eq.trans (run_step (by rfl)) ?_
      all_goals
        simp only [Library.pushClass, Library.nextClass, List.head?_cons, Option.getD_some, modify_push_size,
          Library.classOf, Array.getElem?_push_size, List.append_nil, List.nil_append, ite_self, List.length_nil,
          List.modify_zero_cons]
    · exact (run_fail (run false)).trans (run_fail (run true)).symm

-- The definitions `model B = A change;` and `model B extends A change; end B;`.
def shortForm (change : Source.ClassModification) : Source.ClassDefinition :=
  .mk false false "model" (.base "B" [.mk "A" none] (some change) (.mk "" none))

def longForm (change : Source.ClassModification) : Source.ClassDefinition :=
  .mk false false "model" (.long "B" none "" (.mk [.extends_ [.mk "A" none] (some change) none] [] none none))

def assigning : Source.ClassModification := [.modify [.mk "x" none] (some (.assign (.number "3")))]

theorem assigning_base_eq_long : Source.ModificationArgument.allPlain assigning = true ∧
    ∀ lib, classDefinition (shortForm assigning) {} lib = classDefinition (longForm assigning) {} lib := by
  refine ⟨rfl, classDefinition_base_eq_long false false "model" "B" "" _ _ ?_ {} rfl⟩
  rintro _ ⟨⟩
  rfl

def redeclaring : Source.ClassModification := [.redeclare (.component [] ["Integer"] "x" none none (.mk "" none))]

-- A component that is redeclared for the base class in the short form becomes one of the class itself.
theorem redeclaring_base_enters : ∃ o p next next',
    classDefinition (shortForm redeclaring) { classes := [⟨0⟩] } { classes := #[{ origin := ⟨0⟩ }] } = .ok o next ∧
    classDefinition (longForm redeclaring) { classes := [⟨0⟩] } { classes := #[{ origin := ⟨0⟩ }] } = .ok p next' ∧
    (next.classOf o.1).symbols.keys = ["x"] ∧ (next'.classOf p.1).symbols.keys = [] := by
  simp only [shortForm, longForm, redeclaring, classDefinition, composition, elements, element, sections,
    optionalModification, classModification, modificationArguments, modificationArgument, redeclared, comment]
  exact ⟨_, _, _, _, rfl, rfl, rfl, rfl⟩

end Define

end Modelica
