import Modelica.Proofs.Library.InstanceTree
import Modelica.Proofs.Library.Turns

set_option autoImplicit false

namespace Modelica

def ClassRole.environment? : ClassRole → Option ModificationId
  | .instance_ m => some m
  | _ => none

def SymbolType.instance? : SymbolType → Option ClassId
  | .instance_ c => some c
  | _ => none

namespace Library

variable {hidden : Hidden} {lib now next : Library}

structure Original (lib : Library) : Prop where
  classes : ∀ i < lib.classes.size, lib.originOf ⟨i⟩ = ⟨i⟩ ∧ lib.Holds ⟨i⟩ (lib.classOf ⟨i⟩) ∧
    (∀ e ∈ (lib.classOf ⟨i⟩).classes.values, e.index < lib.classes.size) ∧
    (∀ e ∈ (lib.classOf ⟨i⟩).functions.values, e.index < lib.classes.size) ∧
    ∀ m ∈ (lib.classOf ⟨i⟩).role.environment?, m.index < lib.modifications.size
  symbols : ∀ i < lib.symbols.size,
    (∀ c ∈ (lib.symbolOf ⟨i⟩).type.instance?, c.index < lib.classes.size) ∧
    (∀ c ∈ (lib.symbolOf ⟨i⟩).connectorType, c.index < lib.classes.size) ∧
    ∀ m ∈ (lib.symbolOf ⟨i⟩).modification, m.index < lib.modifications.size

instance (lib : Library) : Decidable lib.Original :=
  decidable_of_iff (_ ∧ _) ⟨fun both => ⟨both.1, both.2⟩, fun o => ⟨o.classes, o.symbols⟩⟩

def Hidden.none : Hidden := ⟨fun _ => False, fun _ => False⟩

theorem Original.sound (original : lib.Original) : lib.Sound .none := by
  refine ⟨nofun, nofun, fun c known => ?_, fun s known => ?_⟩
  · obtain ⟨origin, holds, nested, functions, environment⟩ := original.classes c.index known
    have here : (lib.classOf c).origin = c := origin
    refine ⟨holds, fun e member => ⟨nested e member, nofun⟩,
      fun e member => ⟨functions e member, nofun⟩, fun m has => ?_, nofun, ?_, ?_, nofun, ?_⟩
    · rw [has] at environment
      exact environment m rfl
    · rw [here]
      exact known
    · rw [here]
      exact here
    · rw [here]
      exact .refl lib _
  · obtain ⟨type, connector, modification⟩ := original.symbols s.index known
    refine ⟨fun c has => ⟨?_, nofun⟩, fun c has => ⟨connector c has, nofun⟩, fun m has => ⟨modification m has, nofun⟩⟩
    rw [has] at type
    exact type c rfl

end Library

namespace Build

open Library

namespace Stage

variable {hidden : Hidden} {lib now next : Library} {k : ClassId} {own : Prop}
  {w : ModificationId} {parent : Option ClassId} {classes : OrderedMap (Option String) ClassId}
  {first second : List ArgumentId}

theorem descend (stage : Stage hidden lib k own w parent now classes first now)
    (further : Stage hidden lib k own w parent now classes second next) (names : List String)
    (c : ClassId) (opened : now.Open (hidden.insert k own w) c) : next.descend c names = now.descend c names :=
  descend_congr (fun c opened => by rw [further.others c opened.1 fun same => opened.2 (.inr same)])
    (fun _ _ _ member => stage.sound.nested member) names c opened

theorem findClass? (sound : lib.Sound hidden) (around : ∀ p, parent = some p → p.In lib)
    (stage : Stage hidden lib k own w parent now classes first now)
    (further : Stage hidden lib k own w parent now classes second next) (names : List String)
    (some_ : names ≠ []) : next.findClass? k names = now.findClass? k names := by
  rw [findClass?_eq further.sound.closed, findClass?_eq stage.sound.closed, further.around, stage.around]
  obtain ⟨name, rest, rfl⟩ := List.exists_cons_of_ne_nil some_
  congr 1
  · unfold Library.descend
    rw [further.classes, stage.classes]
    split
    · rfl
    · next e found => exact stage.descend further rest e (stage.opened_class found)
  · refine Option.bind_congr fun p has => ?_
    rw [findClass?_grown sound further.onward.toGrown _ p (around p has),
      findClass?_grown sound stage.onward.toGrown _ p (around p has)]

end Stage

namespace Course

variable {hidden : Hidden} {fuel : Nat} {given k : ClassId} {parent : Option ClassId}
  {lib merged ready next : Library} {w : ModificationId} {classes : OrderedMap (Option String) ClassId}
  (sound : lib.Sound hidden) (around : ∀ p, parent = some p → p.index < lib.classes.size)
  (course : Course hidden fuel given parent lib k w merged ready classes next)

include course

theorem inside_none (name : Option String) (absent : (lib.visible (fuel + 1) given).find? name = none) :
    (next.classOf k).classes.find? name = none := by
  obtain ⟨left, stage⟩ := course.stage
  rw [OrderedMap.find?_eq_none_iff] at absent ⊢
  rw [stage.classes, course.keys]
  rwa [← course.merging.classes, OrderedMap.keys_mapValues] at absent

include sound around in
theorem outside (name : String) (rest : List String)
    (absent : (lib.visible (fuel + 1) given).find? (some name) = none) :
    (next.findClass? k (name :: rest)).map next.originOf =
      parent.bind fun p => (lib.findClass? p (name :: rest)).map lib.originOf := by
  obtain ⟨left, stage⟩ := course.stage
  have none : next.descend k (name :: rest) = none := by
    unfold Library.descend
    rw [course.inside_none (some name) absent]
  rw [findClass?_eq stage.sound.closed, none, stage.around, Option.none_or]
  cases parent with
  | none => rfl
  | some p =>
    have known := around p rfl
    show (next.findClass? p (name :: rest)).map _ = (lib.findClass? p (name :: rest)).map _
    rw [findClass?_grown sound stage.onward.toGrown _ p known]
    refine Option.map_congr fun d found => ?_
    exact stage.onward.originOf d (open_findClass? sound (name :: rest) p d (by simp) found).1

include sound in
theorem base (known : given.In lib) (r : ComponentRef)
    (other : elementaryNames.contains r.name = false) : (baseClass given r).Ensures merged
      (fun b last => (lib.findClass? given r.names).map lib.originOf = some (last.originOf b))
      anyhow := by
  have grown := course.merging.onward.toGrown
  unfold baseClass
  rw [other]
  refine (findClass_copy merged course.merging.sound given r).imp ?_
  rintro b last ⟨_, _, _, stands⟩
  rw [← stands, findClass?_grown sound grown r.names given known]
  exact Option.map_congr fun d found =>
    (grown.originOf d (open_findClass? sound r.names given d (names_ne_nil r) found).1).symm

include sound around in
theorem component (safe : Safe (instantiate fuel)) : EachTurn fuel given k w merged ready fun before after entry =>
    ∀ r, (before.symbolOf entry.2).type = .named r → elementaryNames.contains r.name = false →
      ∃ d c start t, (next.findClass? k r.names).map next.originOf = some d ∧ start.originOf c = d ∧
        (start.classOf c).parent = (next.classOf d).parent ∧
        Makes (instantiate fuel) (fuel + 1) k w entry.1 entry.2 before c start t ∧
        (after.symbolOf entry.2).type = .instance_ t := by
  intro done entry within
  obtain ⟨before, after, left, took, stage, _, ran, rest, further⟩ := course.turns done entry within
  refine ⟨before, after, took, ran, fun r named other => ?_⟩
  have member := within.subset (List.mem_append_right done List.mem_cons_self)
  have listed : entry.2 ∈ (before.classOf k).symbols.values := by
    rw [stage.symbols]
    exact List.mem_map_of_mem member
  have step := stage.anchor.instantiateSymbol safe (fuel + 1) given entry.1 entry.2 listed
  obtain ⟨_, _, _, typed⟩ := (ensures_of_eq ran).1 step
  obtain ⟨d, c, start, t, stands, copy, outside, makes, type⟩ := typed r named other
  obtain ⟨e, found, origin⟩ := Option.map_eq_some_iff.1 stands
  have opened := open_findClass? stage.sound r.names k e (names_ne_nil r) found
  have here := stage.sound.open_originOf opened
  rw [origin] at here
  refine ⟨d, c, start, t, ?_, copy, ?_, makes, type⟩
  · rw [stage.anchor.findClass? sound around further r.names (names_ne_nil r), found, Option.map_some, ← origin]
    exact congrArg (some ∘ ClassDef.origin) (further.others e opened.1 fun same => opened.2 (.inr same))
  · rw [further.others d here.1 fun same => here.2 (.inr same), outside]

end Course

-- A package with a model `D` that has a component of the model `A` beside it, and outside the package another
-- model `A`, a model that extends `D` and a model with a component of it.
def packages : Library where
  classes := #[
    { classes := ⟨[(some "P", ⟨1⟩), (some "A", ⟨4⟩), (some "M", ⟨5⟩), (some "N", ⟨6⟩)]⟩
      role := .root
      origin := ⟨0⟩ },
    model 1 "P" 0 [("A", 2), ("D", 3)] [] [],
    model 2 "A" 1 [] [("x", 0)] [],
    model 3 "D" 1 [] [("a", 1)] [],
    model 4 "A" 0 [] [("wrong", 2)] [],
    model 5 "M" 0 [] [] [⟨.mk "P" [none] (some (.simple "D")), ⟨0⟩, .public_⟩],
    model 6 "N" 0 [] [("d", 3)] []]
  symbols := #[
    { name := "x", type := .named (.simple "Real") },
    { name := "a", type := .named (.simple "A") },
    { name := "wrong", type := .named (.simple "Real") },
    { name := "d", type := .named (.mk "P" [none] (some (.simple "D"))) }]
  modifications := #[⟨[]⟩]
  arguments := #[]

end Build

end Modelica
