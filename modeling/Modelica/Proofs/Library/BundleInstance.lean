import Modelica.Proofs.Library.FlatEquations
import Modelica.Proofs.Library.PlainInstance

set_option autoImplicit false

namespace Modelica.Build

open Library OrderedMap

variable {ok : String → Bool} {lib now : Library}

section Calm

theorem calm_addModification (arguments : List ArgumentId) : Calm ok (addModification arguments) := fun _ =>
  (ensures_addModification arguments).2 fun light => ⟨.of_eq rfl rfl, light.pushModification arguments⟩

theorem calm_addArgument (value : ArgumentValue) (scope : Option ClassId) (redeclare : Bool)
    (new : value.light ok = true) : Calm ok (addArgument value scope redeclare) := fun _ =>
  (ensures_addArgument value scope redeclare).2 fun light => ⟨.of_eq rfl rfl, light.pushArgument _ new⟩

theorem calm_takeArguments (environment : ModificationId) (name : String) : Calm ok (takeArguments environment name) :=
  calm.andThen calm.seen fun _ => calm.andThen (calm_updateModification environment _) fun _ => calm.returned _

theorem calm_modifyMore (s : SymbolId) (arguments : List ArgumentId) : Calm ok (modifyMore s arguments) := by
  refine calm.andThen (calm.symbolOf s) fun d => ?_
  split
  · exact calm_updateModification _ _
  · exact calm.andThen (calm_addModification arguments) fun m => calm_updateSymbol s _ (fun _ => rfl) fun _ => id

theorem calm_attributeArguments (a : ArgumentId) : Calm ok (attributeArguments a) := by
  refine calm_iff.2 fun lib light => ?_
  have given := light.arguments a
  rw [attributeArguments, ensures_bind, elementOf, bind_argumentOf]
  split
  · next component changes value =>
    rw [value, ArgumentValue.light_element, Expr.allLight_iff] at given
    rw [ensures_pure, bind_argumentOf]
    dsimp only
    rw [ensures_bind]
    refine ensures_forIn changes _ _ (fun _ _ now => lib.Steady never now ∧
      now.Light ok) ⟨.refl _ lib, light⟩ ?_ fun _ now holds => .pure holds
    rintro done e rest result now all ⟨steady, light⟩
    have first := given.2 e (by simp [all])
    have kept : ∀ {α : Type} {x : Build α}, Calm ok x → x.Ensures now (fun _ next =>
        lib.Steady never next ∧ next.Light ok) anyhow := fun calm =>
      (calm_iff.1 calm now light).imp fun _ _ ⟨further, light⟩ => ⟨steady.trans further, light⟩
    split
    · exact (kept (calm.argumentsOf _)).bind fun _ _ holds => .pure holds
    · refine (kept (calm_addArgument _ _ _ ?_)).bind fun _ _ holds => .pure holds
      rw [ArgumentValue.light_element, Expr.allLight_iff]
      exact ⟨rfl, List.forall_mem_singleton.2 first⟩
  · exact .throw

theorem calm_componentArguments (own : List ArgumentId) : Calm ok (componentArguments true own) := by
  refine calm.andThen (calm.loop _ _ _ fun a result => ?_) fun _ => calm.returned _
  refine calm.andThen (calm.plainModifier a) fun _ => ?_
  rw [if_pos rfl]
  exact calm.andThen (calm_attributeArguments a) fun _ => calm.returned _

end Calm

theorem componentClass_variable (light : now.Light ok) (id : ClassId) (s : SymbolId)
    (variable_ : now.Variable ok s) : (componentClass id s).Ensures now
      (fun c next => c = none ∧ next = now) anyhow := by
  obtain ⟨r, type, holds⟩ := variable_.type
  rw [componentClass, bind_symbolOf, type]
  dsimp only
  rw [ensures_tryCatch, ensures_map]
  refine instantiable_of_ok light id r holds ?_ ?_
  · exact .pure ⟨rfl, rfl⟩
  · exact .throw

theorem instantiateSymbol_variable (build : Builder) (fuel : Nat) (given id : ClassId)
    (environment : ModificationId) (name : String) (s : SymbolId) (light : now.Light ok)
    (variable_ : now.Variable ok s) :
    (instantiateSymbol build fuel given id environment name s).Ensures now
      (fun _ next => now.Steady never next ∧ next.Light ok) anyhow := by
  rw [instantiateSymbol, ensures_bind]
  refine (componentClass_variable light id s variable_).imp ?_
  rintro _ _ ⟨rfl, rfl⟩
  exact calm_iff.1 (calm.andThen (calm_takeArguments environment name) fun own =>
    calm.andThen (calm_componentArguments own) fun _ => calm_modifyMore s _) _ light

theorem redeclare_bundle (build : Builder) (id : ClassId) (a : ArgumentId) (light : now.Light ok)
    (bundle : now.Bundle ok id) : (redeclare build id a).Ensures now (fun _ next => next = now) anyhow := by
  have given := light.arguments a
  rw [redeclare, bind_argumentOf]
  split
  · split
    · rw [ensures_bind, classEntry, bind_classOf, bundle.classes]
      exact .throw
    · next c value =>
      rw [value, ArgumentValue.light_clause] at given
      rw [given.2.2, List.forIn_nil, ensures_bind, ensures_pure, ensures_pure]
    · exact .throw
  · exact .pure rfl

structure SameBundle (ok : String → Bool) (lib : Library) (c k : ClassId) (next : Library) : Prop where
  light : next.Light ok
  steady : lib.Steady (fun _ => False) next
  new : lib.classes.size ≤ k.index
  bundle : next.Bundle ok k
  imports : (next.classOf k).imports = []
  symbols : (next.classOf k).symbols = (lib.classOf c).symbols
  type : (next.classOf k).type = (lib.classOf c).type
  role : ∃ m, (next.classOf k).role = .instance_ m

theorem SameBundle.calm {c k : ClassId} {mid next : Library} (same : SameBundle ok lib c k mid)
    (steady : mid.Steady never next) (light : next.Light ok) : SameBundle ok lib c k next := by
  have stays := steady.classOf k same.bundle.known
  refine ⟨light, same.steady.trans steady, same.new, same.bundle.later steady fun _ _ => id, ?_, ?_, ?_, ?_⟩
  · rw [stays, same.imports]
  · rw [stays, same.symbols]
  · rw [stays, same.type]
  · rw [stays]
    exact same.role

section

variable (fuel : Nat) (c : ClassId) (parent : Option ClassId) (light : lib.Light ok)
  (bundle : lib.Bundle ok c)
include light bundle

theorem mergeBases_bundle :
    (mergeBases fuel c none parent).Ensures lib (fun k next => SameBundle ok lib c k next) anyhow := by
  match fuel with
  | 0 => exact .throw
  | fuel + 1 =>
    rw [mergeBases, bind_classOf]
    refine (calm_iff.1 (calm_addModification []) lib light).bind ?_
    rintro annotated now ⟨steady, light⟩
    extract_lets rest
    have finish : ∀ waiting now, lib.Steady never now → now.Light ok →
        (rest waiting).Ensures now (fun k next => SameBundle ok lib c k next) anyhow := by
      clear light steady now
      intro waiting now steady light
      simp only [rest, ensures_bind, ensures_addClass, bundle.extends_, List.forIn_nil, ensures_pure, ensures_takeOver,
        modifyValue, ensures_classOf]
      have stays := steady.classOf c bundle.known
      have new : now.nextClass.New lib := steady.moreClasses
      obtain ⟨empty_, shape⟩ : ∃ d : ClassDef, d =
          { name := (lib.classOf c).name, type := (lib.classOf c).type, annotated := some annotated
            parent := parent, role := .instance_ waiting, origin := now.nextClass } := ⟨_, rfl⟩
      rw [← shape]
      have known : now.nextClass.index < (now.pushClass empty_).classes.size := nextClass_lt ..
      have self := classOf_pushClass_self now empty_
      have other := classOf_pushClass_ne now c empty_ (Nat.ne_of_lt (bundle.known.trans_le new))
      replace steady := steady.pushClass empty_
      replace light := light.pushClass empty_ (by rw [shape]; rfl)
      rw [stays] at other
      generalize now.nextClass = k at *
      generalize now.pushClass empty_ = mid at *
      have merged : SameBundle ok lib c k (mid.takeOver k c) := by
        obtain ⟨none₁, none₂, none₃, none₄, none₅⟩ := bundle.silent
        have taken := classOf_takeOver_self mid k c known
        obtain ⟨steady, light, more⟩ : lib.Steady never (mid.takeOver k c) ∧ (mid.takeOver k c).Light ok ∧
            (mid.takeOver k c).classes.size = mid.classes.size := by
          replace light := light.modifyClass k (·.merge (mid.classOf c)) <| by
            rw [self, other, shape, ClassDef.light, ClassDef.merge, bundle.classes]
            rfl
          unfold Library.takeOver
          dsimp only
          split
          · exact ⟨(steady.modifyClass k new _).modifyModification _ _, light.modifyModification _ _,
              classes_size_modifyClass ..⟩
          · exact ⟨steady.modifyClass k new _, light, classes_size_modifyClass ..⟩
        rw [self, other, shape, ClassDef.merge, bundle.classes, bundle.functions, none₁, none₂, none₃, none₄, none₅] at taken
        have symbols : ((mid.takeOver k c).classOf k).symbols = (lib.classOf c).symbols := by
          rw [taken]
          exact empty_union _ bundle.unique.1
        refine ⟨light, steady, new, ⟨more ▸ known, ?_, ?_, ?_, ?_, ?_, symbols ▸ bundle.unique, fun s member => ?_⟩, ?_,
          symbols, ?_, ?_⟩
        · rw [taken]
          exact bundle.kind
        · rw [taken]
        · rw [taken]
          rfl
        · rw [taken]
          rfl
        · rw [taken]
          exact ⟨rfl, rfl, rfl, rfl, rfl⟩
        · exact (bundle.members s (symbols ▸ member)).later steady id
        · rw [taken]
        · rw [taken]
        · exact ⟨_, by rw [taken]⟩
      rw [if_neg merged.bundle.kind]
      exact .pure merged
    split
    · exact finish _ now steady light
    · refine (calm_iff.1 (calm_addModification []) now light).bind ?_
      rintro waiting next ⟨further, light⟩
      exact finish waiting next (steady.trans further) light

theorem instantiate_bundle :
    (instantiate fuel c none parent).Ensures lib (fun k next => SameBundle ok lib c k next) anyhow := by
  match fuel with
  | 0 => exact .throw
  | fuel + 1 =>
    rw [instantiate]
    refine (mergeBases_bundle (fuel + 1) c parent light bundle).bind fun k now same => ?_
    obtain ⟨m, role⟩ := same.role
    rw [ensures_bind, environmentOf, bind_classOf, role]
    dsimp only
    rw [ensures_pure, argumentsOf, ensures_bind, ensures_bind, ensures_modificationOf, ensures_pure, ensures_bind]
    refine (ensures_forEach _ (redeclare (instantiate fuel) k) (· = now) rfl ?_).imp ?_
    · rintro a _ _ rfl
      exact redeclare_bundle _ k a same.light same.bundle
    rintro _ _ rfl
    rw [bind_get]
    refine (calm_iff.1 (calm_updateModification m _) _ same.light).bind ?_
    rintro _ mid ⟨steady, lightMid⟩
    replace same := same.calm steady lightMid
    clear steady lightMid role
    rw [bind_classOf, same.bundle.classes, entries_empty,
      List.forIn_nil, ensures_bind, ensures_pure, ensures_bind, ensures_bind,
      ensures_modificationOf, ensures_pure, ensures_bind]
    refine (ensures_forEach _ (checkTarget k) (· = mid) rfl ?_).imp ?_
    · rintro a _ _ rfl
      exact passing_eq.checkTarget k a _
    rintro _ _ rfl
    rw [bind_classOf, ensures_bind]
    refine (ensures_forIn _ _ _ (fun _ _ now => SameBundle ok lib c k now) same ?_ fun _ _ => id).imp ?_
    · rintro done ⟨name, s⟩ rest ⟨⟩ now all same'
      have variable_ : now.Variable ok s := by
        refine same'.bundle.members s ?_
        rw [same'.symbols, ← same.symbols]
        rw [OrderedMap.values, all]
        simp
      refine (instantiateSymbol_variable _ _ c k m name s same'.light variable_).bind ?_
      rintro _ next ⟨steady, light⟩
      exact .pure (same'.calm steady light)
    · rintro _ now same
      rw [bind_classOf]
      split
      · next optimization has =>
        rw [bind_updateClass, ensures_pure]
        have self := (classOf_modifyClass_self now k · same.bundle.known)
        refine ⟨same.light.modifyClass k _ (same.light.classes k),
          same.steady.modifyClass k same.new _, same.new, ⟨?_, ?_, ?_, ?_, ?_, ?_, ?_, ?_⟩, ?_, ?_, ?_,
          ?_⟩
        · simpa using same.bundle.known
        all_goals rw [self]
        · exact same.bundle.kind
        · exact same.bundle.extends_
        · exact same.bundle.classes
        · exact same.bundle.functions
        · exact same.bundle.silent
        · exact same.bundle.unique
        · exact fun s member => (same.bundle.members s member).modifyClass _ _
        · exact same.imports
        · exact same.symbols
        · exact same.type
        · exact same.role
      · exact .pure same

end

def PlainPart (ok : String → Bool) (lib : Library) (p : Part) : Prop :=
  p.light ok = true ∨ (∃ s, p = .entry (.symbol s) ∧ lib.Variable ok s) ∨
    ∃ a, p = .entry (.argument a)

theorem plainPart_of_piece (piece : Piece) (light : piece.light ok = true) (p : Part)
    (member : p ∈ piece.parts) : PlainPart ok lib p :=
  .inl (List.all_eq_true.1 light p member)

theorem plainPart_of_symbol (light : lib.Light ok) (s : SymbolId) (variable_ : lib.Variable ok s)
    (p : Part) (member : p ∈ lib.parts (.symbol s)) : PlainPart ok lib p := by
  obtain ⟨piece, there, part⟩ := List.mem_flatMap.1 member
  have exprs := light.symbols s
  rw [Symbol.light, Bool.and_eq_true, Expr.allLight_iff] at exprs
  obtain ⟨r, type, holds⟩ := variable_.type
  simp only [Library.pieces, Symbol.pieces, variable_.connectorType, type, List.mem_append,
    Option.toList_none, List.map_nil, List.not_mem_nil, or_false] at there
  obtain (typed | written) | changed := there
  · cases List.mem_singleton.1 typed
    cases List.mem_singleton.1 part
    have bare := exprs.1
    rw [type] at bare
    left
    show ((r.child.isNone || ok r.name) && r.bare) = true
    rw [holds, Bool.or_true, Bool.true_and]
    exact bare
  · obtain ⟨e, listed, rfl⟩ := List.mem_map.1 written
    exact plainPart_of_piece (.expr e) (exprs.2 e listed) p part
  · obtain ⟨m, _, rfl⟩ := List.mem_map.1 changed
    cases List.mem_singleton.1 part
    exact .inl rfl

theorem plainPart_of_side (light : lib.Light ok) (e : Entry) (side : e.Side) (p : Part)
    (member : p ∈ lib.parts e) : PlainPart ok lib p := by
  obtain ⟨piece, there, part⟩ := List.mem_flatMap.1 member
  obtain ⟨m, rfl⟩ | ⟨a, rfl⟩ := side
  · obtain ⟨b, _, rfl⟩ := List.mem_map.1 there
    cases List.mem_singleton.1 part
    exact .inr (.inr ⟨b, rfl⟩)
  · exact plainPart_of_piece piece (List.all_eq_true.1 (light.arguments a) piece there) p part

theorem plainPart_of_bundle {k : ClassId} (bundle : lib.Bundle ok k)
    (imports : (lib.classOf k).imports = []) (p : Part) (member : p ∈ lib.parts (.class_ k)) : PlainPart ok lib p := by
  obtain ⟨piece, there, part⟩ := List.mem_flatMap.1 member
  obtain ⟨i, has, rfl⟩ | ⟨s, has, rfl⟩ | ⟨m, rfl⟩ := bundle.pieces piece there
  · rw [imports] at has
    contradiction
  · cases List.mem_singleton.1 part
    exact .inr (.inl ⟨s, rfl, bundle.members s has⟩)
  · cases List.mem_singleton.1 part
    exact .inl rfl

theorem constantsIn_of_plain (light : now.Light ok) (owner : ClassId)
    (members : ∀ s ∈ (now.classOf owner).symbols.values, now.Variable ok s) (fuel : Nat)
    (found : OrderedMap String SymbolId) (parts : List Part)
    (plain : ∀ p ∈ parts, PlainPart ok now p) : (constantsIn fuel owner found parts).Ensures now
      (fun result next => result = found ∧ next = now) anyhow := by
  induction fuel generalizing parts with
  | zero => exact .throw
  | succ fuel ih =>
    refine constantsIn_step (fun s listed => ?_) fuel found parts (fun r member => ?_) fun e member => ?_
    · obtain ⟨q, type, typed⟩ := (members s listed).type
      obtain ⟨rest, names⟩ := q.names_eq_cons
      exact ⟨q, type, names ▸ findClass?_of_ok light owner _ rest typed⟩
    · obtain part | ⟨s, impossible, _⟩ | ⟨a, impossible⟩ := plain _ member
      · obtain ⟨name, groups, _ | child⟩ := r
        · exact .inl rfl
        · exact .inr (findClass?_of_ok light owner name [] (Bool.and_eq_true _ _ ▸ part).1)
      all_goals contradiction
    · obtain part | ⟨s, same, variable_⟩ | ⟨a, same⟩ := plain _ member
      · match e with
        | .modification m => exact ⟨fun _ => Entry.noConfusion, ih _ (plainPart_of_side light _ (.inl ⟨m, rfl⟩))⟩
      · cases same
        exact ⟨fun _ => Entry.noConfusion, ih _ (plainPart_of_symbol light s variable_)⟩
      · cases same
        exact ⟨fun _ => Entry.noConfusion, ih _ (plainPart_of_side light _ (.inr ⟨a, rfl⟩))⟩

theorem pullConstants_bundle (light : now.Light ok) (k : ClassId) (bundle : now.Bundle ok k)
    (imports : (now.classOf k).imports = []) (role : ∃ m, (now.classOf k).role = .instance_ m) :
    (pullConstants k).Ensures now (fun _ next => next = now) anyhow := by
  obtain ⟨m, role⟩ := role
  exact pullConstants_still role
    (constantsIn_of_plain light k bundle.members _ _ _ (plainPart_of_bundle bundle imports))

end Modelica.Build
