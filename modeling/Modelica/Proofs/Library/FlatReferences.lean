import Modelica.Proofs.Expr.Relocate
import Modelica.Proofs.Library.FlatPaths

set_option autoImplicit false

namespace Modelica

open List (cons_ne_nil mem_map_of_mem)

structure Flat.Collects {α : Type} (list : Flat → List α) (add : Surroundings → ClassDef → List α) :
    Prop where
  empty : list {} = []
  insert : ∀ f name facet, list (Flat.insert f name facet) = list f
  merge : ∀ f g, list (Flat.merge f g) = list f ++ list g
  under : ∀ f outer, list (Flat.under outer f) = list f
  addQualified : ∀ f s d, list (Flat.addQualified s d (f.qualify s)) = list f ++ add s d

namespace Library

def offered {α : Type} (lib : Library) (inner : ClassId → String → List α) (name : String) (s : SymbolId) :
    List α :=
  match (lib.symbolOf s).type with
  | .instance_ d => if (lib.classOf d).type = "__builtin" then [] else inner d name
  | _ => []

-- The instances in an instance with their names, those inside before the one around them. The fuel bounds the
-- depth.
def instances (lib : Library) : Nat → ClassId → String → List (String × ClassId)
  | 0, _, _ => []
  | fuel + 1, c, name =>
    ((lib.classOf c).symbols.entries.flatMap fun e =>
      lib.offered (lib.instances fuel) (inFront name ++ e.1) e.2) ++ [(name, c)]

inductive Stands (lib : Library) : ClassId → List String → ClassId → Prop
  | here {c : ClassId} : Stands lib c [] c
  | inside {c d k : ClassId} {e : String × SymbolId} {p : List String} :
      e ∈ (lib.classOf c).symbols.entries → (lib.symbolOf e.2).type = .instance_ d →
      (lib.classOf d).type ≠ "__builtin" → Stands lib d p k → Stands lib c (e.1 :: p) k

def owns (lib : Library) (c : ClassId) (name : String) : Bool := (lib.classOf c).symbols.keys.contains name

def Path (lib : Library) (c : ClassId) (names : List String) : Prop :=
  ∃ p flag, lib.Route c p flag ∧ names = p.map Prod.fst

def Sites (lib : Library) (c : ClassId) : Expr → Prop := Expr.Sited (lib.Path c) (lib.owns c)

structure Consistent (lib : Library) (c : ClassId) : Prop where
  equations : ∀ e ∈ (lib.classOf c).equations, e.Over (lib.Sites c)
  constraints : ∀ d ∈ (lib.classOf c).constraints, d.Over (lib.Sites c)
  initialEquations : ∀ e ∈ (lib.classOf c).initialEquations, e.Over (lib.Sites c)
  statements : ∀ s ∈ (lib.classOf c).statements, s.Over (lib.Sites c)
  initialStatements : ∀ s ∈ (lib.classOf c).initialStatements, s.Over (lib.Sites c)

variable {ok : String → Bool} {inside : ClassId → Prop} {lib : Library} {c d : ClassId} {name : String}

def standing (name : String) : List String → String
  | [] => name
  | p => under name p

theorem standing_cons (key : String) (nonempty : key ≠ "") (p : List String) :
    standing (inFront name ++ key) p = under name (key :: p) := by
  cases p with
  | nil => exact (under_single name key).symm
  | cons k p => exact (under_cons name key nonempty (cons_ne_nil k p)).symm

variable {p : List String} {flag : Bool}

theorem Stands.within (laid : lib.Laid ok inside) (stands : lib.Stands c p d) (within : inside c) : inside d := by
  induction stands with
  | here => exact within
  | inside member type kind _ ih => exact ih (laid.deeper within (mem_map_of_mem member) type kind)

theorem Stands.route (stands : lib.Stands c p d) {q : List (String × SymbolId)} (route : lib.Route d q flag) :
    ∃ r, lib.Route c r flag ∧ r.map Prod.fst = p ++ q.map Prod.fst := by
  induction stands with
  | here => exact ⟨q, route, rfl⟩
  | @inside c d k e p member type kind _ ih =>
    obtain ⟨r, further, names⟩ := ih route
    exact ⟨e :: r, .inner member type kind further, by rw [List.map_cons, names, List.cons_append]⟩

section Offered

variable {α : Type} (inner : ClassId → String → List α) (s : SymbolId)

theorem mem_offered {a : α} : a ∈ lib.offered inner name s ↔
    ∃ d, (lib.symbolOf s).type = .instance_ d ∧ (lib.classOf d).type ≠ "__builtin" ∧ a ∈ inner d name := by
  unfold offered
  cases type : (lib.symbolOf s).type with
  | named r | connector n => simp
  | instance_ d => by_cases kind : (lib.classOf d).type = "__builtin" <;> simp [kind]

theorem offered_induction {motive : List α → Prop} (nil : motive [])
    (inside : ∀ d, (lib.symbolOf s).type = .instance_ d → (lib.classOf d).type ≠ "__builtin" →
      motive (inner d name)) : motive (lib.offered inner name s) := by
  unfold offered
  split
  · next d type =>
    split
    · exact nil
    · next kind => exact inside d type kind
  · exact nil

theorem offered_eq_flatMap {β : Type} (other : ClassId → String → List β) (f : α → List β)
    (same : ∀ d, (lib.symbolOf s).type = .instance_ d → (lib.classOf d).type ≠ "__builtin" →
      other d name = (inner d name).flatMap f) : lib.offered other name s = (lib.offered inner name s).flatMap f := by
  unfold offered
  split
  · next d type =>
    split
    · rfl
    · next kind => exact same d type kind
  · rfl

end Offered

theorem under_ne (key : String) (nonempty : key ≠ "") (p : List String) : under name (key :: p) ≠ name := by
  intro same
  have lengths := congrArg String.length same
  have longer : 0 < (".".intercalate (key :: p)).length := by
    rw [Nat.pos_iff_ne_zero, Ne, String.length_eq_zero_iff]
    intro none
    cases p with
    | nil => exact nonempty (by rwa [String.intercalate_singleton] at none)
    | cons k p =>
      rw [String.intercalate_cons_of_ne_nil (cons_ne_nil k p)] at none
      exact nonempty (String.append_eq_empty_iff.1 (String.append_eq_empty_iff.1 none).1).1
  rw [under, String.length_append, inFront] at lengths
  split at lengths
  · next empty =>
    rw [empty] at lengths
    simp only [String.length_empty] at lengths
    omega
  · rw [String.length_append] at lengths
    omega

section Instances

variable (laid : lib.Laid ok inside) (identifiers : lib.Identifiers inside)

include laid identifiers

theorem Stands.plain (stands : lib.Stands c p d) (within : inside c) : ∀ k ∈ p, k ≠ "" ∧ '.' ∉ k.toList := by
  induction stands with
  | here => simp
  | inside member type kind _ ih =>
    refine List.forall_mem_cons.2 ⟨identifiers _ within _ (mem_map_of_mem member), ?_⟩
    exact ih (laid.deeper within (mem_map_of_mem member) type kind)

theorem mem_instances (fuel : Nat) (within : inside c) (bottoms : lib.Bottoms fuel c) (i : String × ClassId) :
    i ∈ lib.instances fuel c name ↔ ∃ p, lib.Stands c p i.2 ∧ i.1 = standing name p := by
  induction fuel generalizing c name with
  | zero => exact bottoms.elim
  | succ fuel ih =>
    rw [instances, List.mem_append, List.mem_flatMap, List.mem_singleton]
    have nonempty : ∀ e ∈ (lib.classOf c).symbols.entries, e.1 ≠ "" := fun e member =>
      (identifiers c within e.1 (mem_map_of_mem member)).1
    constructor
    · rintro (⟨e, member, listed⟩ | rfl)
      · obtain ⟨d, type, kind, listed⟩ := (mem_offered _ _).1 listed
        obtain ⟨p, stands, called⟩ := (ih (laid.deeper within (mem_map_of_mem member) type kind)
          (bottoms e.2 (mem_map_of_mem member) d type kind)).1 listed
        exact ⟨e.1 :: p, .inside member type kind stands, called.trans (standing_cons e.1 (nonempty e member) p)⟩
      · exact ⟨[], .here, rfl⟩
    · rintro ⟨p, stands, called⟩
      obtain ⟨n, k⟩ := i
      simp only at stands called
      cases stands with
      | here => exact .inr (congrArg (Prod.mk · c) called)
      | @inside _ d _ e p member type kind stands =>
        refine .inl ⟨e, member, (mem_offered _ _).2 ⟨d, type, kind, ?_⟩⟩
        exact (ih (laid.deeper within (mem_map_of_mem member) type kind)
          (bottoms e.2 (mem_map_of_mem member) d type kind)).2
          ⟨p, stands, called.trans (standing_cons e.1 (nonempty e member) p).symm⟩

theorem nodup_instances (fuel : Nat) (within : inside c) (bottoms : lib.Bottoms fuel c) :
    ((lib.instances fuel c name).map Prod.fst).Nodup := by
  induction fuel generalizing c name with
  | zero => exact bottoms.elim
  | succ fuel ih =>
    have key : ∀ e ∈ (lib.classOf c).symbols.entries, e.1 ≠ "" ∧ '.' ∉ e.1.toList := fun e member =>
      identifiers c within e.1 (mem_map_of_mem member)
    -- what a component brings has a name that begins with its own
    have brings : ∀ e ∈ (lib.classOf c).symbols.entries,
        ∀ i ∈ lib.offered (lib.instances fuel) (inFront name ++ e.1) e.2,
          ∃ p, i.1 = under name (e.1 :: p) ∧ ∀ k ∈ e.1 :: p, '.' ∉ k.toList := by
      intro e member i listed
      obtain ⟨d, type, kind, listed⟩ := (mem_offered _ _).1 listed
      have deeper := laid.deeper within (mem_map_of_mem member) type kind
      obtain ⟨p, stands, called⟩ := (mem_instances laid identifiers fuel deeper
        (bottoms e.2 (mem_map_of_mem member) d type kind) i).1 listed
      refine ⟨p, called.trans (standing_cons e.1 (key e member).1 p), List.forall_mem_cons.2
        ⟨(key e member).2, fun k listed => (stands.plain laid identifiers deeper k listed).2⟩⟩
    rw [instances, List.map_append, List.nodup_append, List.map_flatMap, List.nodup_flatMap]
    refine ⟨⟨fun e member => ?_, ?_⟩, List.nodup_singleton _, ?_⟩
    · exact offered_induction (motive := fun l => (l.map Prod.fst).Nodup) _ _ List.nodup_nil fun d type kind =>
        ih (laid.deeper within (mem_map_of_mem member) type kind) (bottoms e.2 (mem_map_of_mem member) d type kind)
    · have distinct := laid.unique c within
      rw [OrderedMap.keys, List.Nodup, List.pairwise_map] at distinct
      refine distinct.imp_of_mem fun {e e'} first second differ k here there => ?_
      obtain ⟨i, listed, rfl⟩ := List.mem_map.1 here
      obtain ⟨i', listed', same⟩ := List.mem_map.1 there
      obtain ⟨p, called, plain⟩ := brings e first i listed
      obtain ⟨q, called', plain'⟩ := brings e' second i' listed'
      have paths := under_injective name (cons_ne_nil _ _) (cons_ne_nil _ _) plain plain'
        (called.symm.trans (same.symm.trans called'))
      exact differ (List.cons.inj paths).1
    · intro k listed k' only same
      rw [List.map_singleton, List.mem_singleton] at only
      obtain ⟨e, member, there⟩ := List.mem_flatMap.1 listed
      obtain ⟨i, offered, rfl⟩ := List.mem_map.1 there
      obtain ⟨p, called, -⟩ := brings e member i offered
      exact under_ne e.1 (key e member).1 p (called.symm.trans (same.trans only))

theorem flat_around (fuel : Nat) (within : inside c) (bottoms : lib.Bottoms (fuel + 1) c) :
    (⟨inFront name, fun n => ((lib.classOf c).symbols.entries.foldl
      (fun f e => lib.addFlat (lib.flat fuel) f (inFront name ++ e.1) e.2) {}).symbols.keys.contains n⟩ :
        Surroundings) = lib.around c name := by
  obtain ⟨lists, -⟩ := flat_lists laid identifiers (fuel + 1) name within bottoms
  have keys : (lib.flat (fuel + 1) c name).symbols.keys = ((lib.classOf c).symbols.entries.foldl
      (fun f e => lib.addFlat (lib.flat fuel) f (inFront name ++ e.1) e.2) {}).symbols.keys :=
    OrderedMap.keys_mapValues _ _
  refine congrArg (Surroundings.mk (inFront name)) (funext fun n => ?_)
  rw [← keys]
  have iff : n ∈ (lib.flat (fuel + 1) c name).symbols.keys ↔ lib.Names c name n := by
    constructor
    · intro member
      obtain ⟨⟨k, v⟩, listed, rfl⟩ := List.mem_map.1 member
      obtain ⟨p, route, called, -⟩ := (lists k v).1 listed
      exact ⟨p, v.2, route, called⟩
    · rintro ⟨p, flag, route, rfl⟩
      exact mem_map_of_mem ((lists _ (lib.resolved c name p, flag)).2 ⟨p, route, rfl, rfl⟩)
  rw [Bool.eq_iff_iff, List.contains_iff_mem, iff]
  classical exact decide_eq_true_iff.symm

theorem around_follows (within : inside c) (name : String) : (lib.around c name).Follows (lib.Path c) (lib.owns c) where
  known ns leads := by
    obtain ⟨p, flag, route, rfl⟩ := leads
    classical exact decide_eq_true (p := lib.Names c name _) ⟨p, flag, route, rfl⟩
  own n ns plain known := by
    classical
    obtain ⟨p, flag, route, same⟩ := of_decide_eq_true (p := lib.Names c name _) known
    have names : n :: ns = p.map Prod.fst := by
      refine under_injective name (cons_ne_nil n ns) (by simpa using route.ne_nil) plain ?_ same
      exact fun k listed => (route.plain laid identifiers within k listed).2
    obtain ⟨e, q, rfl⟩ := List.exists_cons_of_ne_nil route.ne_nil
    rw [owns, List.contains_iff_mem, (List.cons.inj names).1]
    exact mem_map_of_mem route.head

theorem known_components (fuel : Nat) (within : inside c) (bottoms : lib.Bottoms fuel c) {p : List (String × SymbolId)}
    (route : lib.Route c p flag) : under name (p.map Prod.fst) ∈ (lib.flat fuel c name).symbols.keys := by
  obtain ⟨lists, -⟩ := flat_lists laid identifiers fuel name within bottoms
  exact mem_map_of_mem ((lists _ (lib.resolved c name p, flag)).2 ⟨p, route, rfl, rfl⟩)

end Instances

section Collected

variable {α : Type} {list : Flat → List α} {add : Surroundings → ClassDef → List α}

section

variable (collects : Flat.Collects list add)
include collects

theorem addFlat_collects (inner : ClassId → String → Flat) (f : Flat) (s : SymbolId) :
    list (lib.addFlat inner f name s) =
      list f ++ lib.offered (fun d n => list (inner d n)) name s := by
  unfold addFlat offered
  cases type : (lib.symbolOf s).type with
  | named r | connector n => simp [collects.insert]
  | instance_ d =>
    by_cases builtin : (lib.classOf d).type = "__builtin"
    · simp [builtin, collects.insert]
    · by_cases connector : (lib.classOf d).type = "connector"
      · simp [connector, collects.insert, collects.merge, collects.under]
      · simp [builtin, connector, collects.merge, collects.under]

theorem foldl_addFlat_collects (inner : ClassId → String → Flat) (before : String)
    (es : List (String × SymbolId)) (f : Flat) :
    list (es.foldl (fun f e => lib.addFlat inner f (before ++ e.1) e.2) f) =
      list f ++ es.flatMap fun e => lib.offered (fun d n => list (inner d n)) (before ++ e.1) e.2 := by
  induction es generalizing f with
  | nil => simp
  | cons e es ih =>
    rw [List.foldl_cons, ih, addFlat_collects collects, List.flatMap_cons, List.append_assoc]

theorem flat_collects (laid : lib.Laid ok inside) (identifiers : lib.Identifiers inside)
    (fuel : Nat) (within : inside c) (bottoms : lib.Bottoms fuel c) : list (lib.flat fuel c name) =
      (lib.instances fuel c name).flatMap fun i => add (lib.around i.2 i.1) (lib.classOf i.2) := by
  induction fuel generalizing c name with
  | zero => exact bottoms.elim
  | succ fuel ih =>
    have whole : list (lib.flat (fuel + 1) c name) = list ((lib.classOf c).symbols.entries.foldl
        (fun f e => lib.addFlat (lib.flat fuel) f (inFront name ++ e.1) e.2) {}) ++
          add (lib.around c name) (lib.classOf c) := by
      rw [← flat_around laid identifiers fuel within bottoms]
      exact collects.addQualified _ _ _
    rw [whole, instances, List.flatMap_append, List.flatMap_singleton, List.flatMap_assoc]
    refine congrArg (· ++ _) ?_
    rw [foldl_addFlat_collects collects, collects.empty, List.nil_append]
    refine List.flatMap_congr fun e member => ?_
    exact offered_eq_flatMap _ _ _ _ fun d type kind =>
      ih (laid.deeper within (mem_map_of_mem member) type kind) (bottoms e.2 (mem_map_of_mem member) d type kind)

end

theorem flat_places (written : ClassDef → List α) (place : Surroundings → α → α)
    (moved : String → (String → Bool) → α → α)
    (collects : Flat.Collects list fun s d => (written d).map (place s)) (laid : lib.Laid ok inside)
    (identifiers : lib.Identifiers inside) (fuel : Nat) (within : inside c) (bottoms : lib.Bottoms fuel c)
    (same : ∀ i ∈ lib.instances fuel c name, ∀ a ∈ written (lib.classOf i.2),
      place (lib.around i.2 i.1) a = moved (inFront i.1) (lib.owns i.2) a) :
    list (lib.flat fuel c name) = (lib.instances fuel c name).flatMap fun i =>
      (written (lib.classOf i.2)).map (moved (inFront i.1) (lib.owns i.2)) := by
  rw [flat_collects collects laid identifiers fuel within bottoms]
  exact List.flatMap_congr fun i member => List.map_congr_left (same i member)

end Collected

theorem standing_empty (p : List String) : standing "" p = ".".intercalate p := by
  cases p with
  | nil => rfl
  | cons k p => exact String.empty_append

end Library

namespace Build

open Library

variable {ok : String → Bool} {inside : ClassId → Prop} {lib : Library} {tree : ClassId}

-- Every equation of every instance is in the flat class once, those of inner instances first, and so is every
-- constraint and statement. Its references have the name of the instance in front and keep all their
-- subscripts; each names a component of the flat class. Nothing else in it changes; a connection remembers
-- which of its sides belong to components.
theorem flattenInstance_collects (dotted : Dotted ok) (light : lib.Light ok) (laid : lib.Laid ok inside)
    (within : inside tree) (identifiers : lib.Identifiers inside)
    (consistent : ∀ c, inside c → lib.Consistent c) {fuel : Nat} {flat : ClassId} {next : Library}
    (flattened : flattenInstance fuel tree "" lib = .ok flat next) :
    (∀ n c, (n, c) ∈ lib.instances fuel tree "" ↔ ∃ p, lib.Stands tree p c ∧ n = ".".intercalate p) ∧
    ((lib.instances fuel tree "").map Prod.fst).Nodup ∧
    (next.classOf flat).equations = ((lib.instances fuel tree "").flatMap fun i =>
      (lib.classOf i.2).equations.map fun e => markSides e (e.relocate (inFront i.1) (lib.owns i.2))) ∧
    (next.classOf flat).constraints = ((lib.instances fuel tree "").flatMap fun i =>
      (lib.classOf i.2).constraints.map (Constraint.relocate (inFront i.1) (lib.owns i.2))) ∧
    (next.classOf flat).initialEquations = ((lib.instances fuel tree "").flatMap fun i =>
      (lib.classOf i.2).initialEquations.map (Equation.relocate (inFront i.1) (lib.owns i.2))) ∧
    (next.classOf flat).statements = ((lib.instances fuel tree "").flatMap fun i =>
      (lib.classOf i.2).statements.map (Statement.relocate (inFront i.1) (lib.owns i.2))) ∧
    (next.classOf flat).initialStatements = ((lib.instances fuel tree "").flatMap fun i =>
      (lib.classOf i.2).initialStatements.map (Statement.relocate (inFront i.1) (lib.owns i.2))) ∧
    ∀ p c q, lib.Stands tree p c → lib.Path c q →
      ".".intercalate (p ++ q) ∈ (next.classOf flat).symbols.keys := by
  have result := (ensures_of_eq flattened).1 (flattens dotted fuel inside lib tree "" lib laid within
    (.refl lib) light)
  have view := result.growing.view
  have bottoms := result.bottoms
  have listed : ∀ i, i ∈ lib.instances fuel tree "" ↔ _ :=
    mem_instances laid identifiers fuel within bottoms
  have inner : ∀ i ∈ lib.instances fuel tree "", inside i.2 := by
    intro i member
    obtain ⟨p, stands, -⟩ := (listed i).1 member
    exact stands.within laid within
  have agree : ∀ i ∈ lib.instances fuel tree "", (lib.around i.2 i.1).mapping.Agree
      (relocating (inFront i.1) (lib.owns i.2)) (fun _ x => x) (lib.Sites i.2) := fun i member =>
    Surroundings.mapping_agree (around_follows laid identifiers (inner i member) i.1)
  have valid := fun i member => consistent i.2 (inner i member)
  refine ⟨fun n c => ?_, nodup_instances laid identifiers fuel within bottoms, ?_, ?_, ?_, ?_, ?_, ?_⟩
  · rw [listed]
    simp only [standing_empty]
  · refine (congrArg Flat.equations view).trans (flat_places ClassDef.equations
      (fun s e => markSides e (e.qualify s)) (fun before own e => markSides e (e.relocate before own))
      ⟨rfl, fun _ _ _ => rfl, fun _ _ => rfl, fun _ _ => rfl, fun _ _ _ => rfl⟩ laid identifiers fuel
      within bottoms fun i member e written => congrArg (markSides e) ?_)
    exact congrArg Id.run ((agree i member).equation e ((valid i member).equations e written))
  · refine (congrArg Flat.constraints view).trans (flat_places ClassDef.constraints Constraint.qualify
      Constraint.relocate ⟨rfl, fun _ _ _ => rfl, fun _ _ => rfl, fun _ _ => rfl, fun _ _ _ => rfl⟩ laid
      identifiers fuel within bottoms fun i member c written => ?_)
    exact congrArg Id.run ((agree i member).constraint c ((valid i member).constraints c written))
  · refine (congrArg Flat.initialEquations view).trans (flat_places ClassDef.initialEquations
      Equation.qualify Equation.relocate ⟨rfl, fun _ _ _ => rfl, fun _ _ => rfl, fun _ _ => rfl,
        fun _ _ _ => rfl⟩ laid identifiers fuel within bottoms fun i member e written => ?_)
    exact congrArg Id.run ((agree i member).equation e ((valid i member).initialEquations e written))
  · refine (congrArg Flat.statements view).trans (flat_places ClassDef.statements Statement.qualify
      Statement.relocate ⟨rfl, fun _ _ _ => rfl, fun _ _ => rfl, fun _ _ => rfl, fun _ _ _ => rfl⟩ laid
      identifiers fuel within bottoms fun i member s written => ?_)
    exact congrArg Id.run ((agree i member).statement s ((valid i member).statements s written))
  · refine (congrArg Flat.initialStatements view).trans (flat_places ClassDef.initialStatements
      Statement.qualify Statement.relocate ⟨rfl, fun _ _ _ => rfl, fun _ _ => rfl, fun _ _ => rfl,
        fun _ _ _ => rfl⟩ laid identifiers fuel within bottoms fun i member s written => ?_)
    exact congrArg Id.run ((agree i member).statement s ((valid i member).initialStatements s written))
  · rintro p c q stands ⟨r, flag, route, rfl⟩
    obtain ⟨whole, route, names⟩ := stands.route route
    have there : under "" (whole.map Prod.fst) ∈ (lib.flat fuel tree "").symbols.keys :=
      known_components laid identifiers fuel within bottoms route
    rw [← view, names] at there
    have keys : (next.view flat).symbols.keys = (next.classOf flat).symbols.keys :=
      OrderedMap.keys_mapValues _ _
    rw [keys] at there
    have called : under "" (p ++ r.map Prod.fst) = ".".intercalate (p ++ r.map Prod.fst) :=
      String.empty_append
    rwa [called] at there

def calling (function : String) : Library where
  classes := #[
    { name := some "M", type := "model", symbols := ⟨[("a", ⟨0⟩)]⟩, origin := ⟨0⟩
      equations := [.simple (.ref (.mk "a" [none] (some (.mk "y" [some [.integer 2]] none))))
        (.ref (.simple "time")) ""] },
    { name := some "A", type := "model", symbols := ⟨[("sin", ⟨1⟩), ("x", ⟨2⟩), ("y", ⟨3⟩)]⟩, origin := ⟨1⟩
      equations := [.forLoop [⟨"i", .slice (.integer 1) (.integer 3) .absent⟩]
        [.simple (.ref (.mk "y" [some [.ref (.simple "i")]] none))
          (.apply (.function (.simple function)) [.ref (.simple "x")]) ""] ""] }]
  symbols := #[
    { name := "a", type := .instance_ ⟨1⟩ },
    { name := "sin", type := .named (.simple "Real") },
    { name := "x", type := .named (.simple "Real") },
    { name := "y", type := .named (.simple "Real"), dimensions := [[.integer 3]] }]

theorem calling_cases {c : ClassId} (known : c.index < 2) : c = ⟨0⟩ ∨ c = ⟨1⟩ := by
  obtain ⟨i⟩ := c
  simp only [ClassId.mk.injEq] at known ⊢
  omega

theorem calling_light : (calling "cos").Light fun _ => true := .of_all rfl rfl rfl

theorem calling_component (c : ClassId) (known : c.index < 2) (s : SymbolId)
    (member : s ∈ ((calling "cos").classOf c).symbols.values) :
    (calling "cos").Component (fun _ => true) (·.index < 2) s := by
  have all : ∀ i : Fin 2, ∀ s ∈ ((calling "cos").classOf ⟨i⟩).symbols.values, s.index < 4 ∧
      (∀ e ∈ ((calling "cos").symbolOf s).dimensions.flatten, e.bare = true) ∧
      (calling "cos").ordinary 2 s = true := by
    decide
  obtain ⟨small, bare, ordinary⟩ := all ⟨c.index, known⟩ s member
  exact .of_ordinary small bare ordinary

theorem calling_laid : (calling "cos").Laid (fun _ => true) (·.index < 2) := by
  refine .of_ranges (fun c => (c.index, 4)) (by decide) (fun c known => ?_) calling_component (by decide)
  obtain rfl | rfl := calling_cases known
  all_goals
    refine ⟨fun e member => ?_, by rintro _ ⟨⟩, by rintro _ ⟨⟩, by rintro _ ⟨⟩, by rintro _ ⟨⟩⟩
    cases List.mem_singleton.1 member
  · exact ⟨⟨rfl, rfl⟩, rfl, rfl⟩
  · refine ⟨fun i listed => ?_, ⟨⟨rfl, rfl⟩, rfl, rfl⟩, trivial⟩
    cases List.mem_singleton.1 listed
    exact ⟨rfl, rfl⟩

theorem calling_identifiers : (calling "cos").Identifiers (·.index < 2) := by
  have all : ∀ i : Fin 2, ∀ k ∈ ((calling "cos").classOf ⟨i⟩).symbols.keys, k ≠ "" ∧ '.' ∉ k.toList := by
    decide
  exact fun c known => all ⟨c.index, known⟩

theorem calling_path (n : String) (s : SymbolId)
    (member : (n, s) ∈ ((calling "cos").classOf ⟨1⟩).symbols.entries) : (calling "cos").Path ⟨1⟩ [n] := by
  refine ⟨[(n, s)], false, .leaf member ?_, rfl⟩
  have all : ∀ e ∈ ((calling "cos").classOf ⟨1⟩).symbols.entries,
      ((calling "cos").symbolOf e.2).type = .named (.simple "Real") := by
    intro e member
    obtain rfl | rfl | rfl : e = ("sin", ⟨1⟩) ∨ e = ("x", ⟨2⟩) ∨ e = ("y", ⟨3⟩) := by
      simpa [calling, Library.classOf] using member
    all_goals rfl
  exact .inl ⟨_, all _ member⟩

theorem calling_consistent (c : ClassId) (known : c.index < 2) : (calling "cos").Consistent c := by
  obtain rfl | rfl := calling_cases known
  all_goals
    refine ⟨fun e member => ?_, by rintro _ ⟨⟩, by rintro _ ⟨⟩, by rintro _ ⟨⟩, by rintro _ ⟨⟩⟩
    cases List.mem_singleton.1 member
  · obtain ⟨p, flag, route, names⟩ := calling_path "y" ⟨3⟩ (by decide)
    have path : (calling "cos").Path ⟨0⟩ ["a", "y"] := by
      refine ⟨("a", ⟨0⟩) :: p, flag, .inner (d := ⟨1⟩) (by decide) rfl (by decide) route, ?_⟩
      rw [List.map_cons, ← names]
    exact ⟨.inl ⟨by decide, path, trivial, ⟨⟨trivial, trivial⟩, trivial⟩, trivial⟩,
      .inr ⟨by decide, by decide, rfl, rfl⟩⟩
  · refine ⟨fun i listed => ?_, ⟨?_, ?_⟩, trivial⟩
    · cases List.mem_singleton.1 listed
      exact ⟨trivial, trivial, trivial⟩
    · exact .inl ⟨by decide, calling_path "y" ⟨3⟩ (by decide),
        ⟨⟨.inr ⟨by decide, by decide, rfl, rfl⟩, trivial⟩, trivial⟩, trivial⟩
    · refine ⟨⟨by decide, by decide⟩, ?_, trivial⟩
      exact .inl ⟨by decide, calling_path "x" ⟨2⟩ (by decide), trivial, trivial⟩

def loopsOver (function : String) : Equation → Bool
  | .forLoop _ [.simple _ (.apply (.function r) _) _] _ => r.name == function
  | _ => false

theorem calling_runs : (flattenInstance 9 ⟨0⟩ "").passes (calling "cos") (fun _ _ => true) = true := by
  decide +kernel

theorem calling_captures : (flattenInstance 9 ⟨0⟩ "").passes (calling "sin") (fun flat next =>
    (next.classOf flat).equations.any (loopsOver "a.sin")) = true := by
  decide +kernel

theorem calling_cosine : ∃ flat next, flattenInstance 9 ⟨0⟩ "" (calling "cos") = .ok flat next ∧
    (next.classOf flat).equations = ((calling "cos").instances 9 ⟨0⟩ "").flatMap (fun i =>
      ((calling "cos").classOf i.2).equations.map fun e =>
        markSides e (e.relocate (inFront i.1) ((calling "cos").owns i.2))) ∧
    (calling "cos").instances 9 ⟨0⟩ "" = [("a", ⟨1⟩), ("", ⟨0⟩)] ∧
    "a.y" ∈ (next.classOf flat).symbols.keys := by
  obtain ⟨flat, next, flattened, -⟩ := exists_of_passes _ _ _ calling_runs
  have dotted : Dotted fun _ => true := fun _ _ => rfl
  obtain ⟨-, -, equations, -, -, -, -, known⟩ := flattenInstance_collects dotted calling_light calling_laid
    (by decide : (⟨0⟩ : ClassId).index < 2) calling_identifiers calling_consistent flattened
  refine ⟨flat, next, flattened, equations, by decide, ?_⟩
  exact known ["a"] ⟨1⟩ ["y"] (.inside (e := ("a", ⟨0⟩)) (by decide) rfl (by decide) .here)
    (calling_path "y" ⟨3⟩ (by decide))

theorem calling_captured : ∃ flat next, flattenInstance 9 ⟨0⟩ "" (calling "sin") = .ok flat next ∧
    ((calling "sin").classOf ⟨1⟩).equations.any (loopsOver "sin") = true ∧
    (next.classOf flat).equations.any (loopsOver "a.sin") = true := by
  obtain ⟨flat, next, flattened, captured⟩ := exists_of_passes _ _ _ calling_captures
  exact ⟨flat, next, flattened, by decide, captured⟩

end Build

end Modelica
