import Modelica.Proofs.Library.FlatView

set_option autoImplicit false

namespace Modelica

open OrderedMap
open List (append_nil map_append map_cons mem_map_of_mem)

namespace Library

-- A component that is a variable or becomes one by taking over the value of its class.
def Leaf (lib : Library) (s : SymbolId) : Prop :=
  (∃ r, (lib.symbolOf s).type = .named r) ∨
    ∃ c, (lib.symbolOf s).type = .instance_ c ∧ (lib.classOf c).type = "__builtin"

-- A class derived from a built-in type: it holds its value and nothing else.
structure Wraps (ok : String → Bool) (lib : Library) (c : ClassId) : Prop where
  known : c.index < lib.classes.size
  kind : (lib.classOf c).type = "__builtin"
  value : ∃ v r, (lib.classOf c).symbols.entries = [("__value", v)] ∧ v.index < lib.symbols.size ∧
    (lib.symbolOf v).type = .named r ∧ ok r.name = true

structure Plug (lib : Library) (c : ClassId) : Prop where
  kind : (lib.classOf c).type = "connector"
  extends_ : (lib.classOf c).extends_ = []
  classes : (lib.classOf c).classes = .empty
  functions : (lib.classOf c).functions = .empty
  silent : (lib.classOf c).Silent
  leaves : ∀ s ∈ (lib.classOf c).symbols.values, lib.Leaf s

inductive Shape (ok : String → Bool) (inside : ClassId → Prop) (lib : Library) :
    SymbolType → Option ClassId → Prop
  | elementary {r : ComponentRef} : ok r.name = true → Shape ok inside lib (.named r) none
  | value {c : ClassId} : lib.Wraps ok c → Shape ok inside lib (.instance_ c) none
  | inner {c : ClassId} {kept : Option ClassId} : inside c → (lib.classOf c).type ≠ "__builtin" →
      (lib.classOf c).type ≠ "connector" → Shape ok inside lib (.instance_ c) kept
  | plug {c : ClassId} {kept : Option ClassId} : inside c → lib.Plug c →
      Shape ok inside lib (.instance_ c) kept

structure Component (ok : String → Bool) (inside : ClassId → Prop) (lib : Library) (s : SymbolId) :
    Prop where
  known : s.index < lib.symbols.size
  bare : ∀ e ∈ (lib.symbolOf s).dimensions.flatten, e.bare = true
  shape : Shape ok inside lib (lib.symbolOf s).type (lib.symbolOf s).connectorType

inductive Contains (lib : Library) : ClassId → SymbolId → Prop
  | own {c : ClassId} {s : SymbolId} : s ∈ (lib.classOf c).symbols.values → Contains lib c s
  | deeper {c d : ClassId} {s t : SymbolId} : t ∈ (lib.classOf c).symbols.values →
      (lib.symbolOf t).type = .instance_ d → Contains lib d s → Contains lib c s

-- Instances that can be flattened: their equations call no functions of the library, and no component stands at
-- two places.
structure Laid (ok : String → Bool) (inside : ClassId → Prop) (lib : Library) : Prop where
  known : ∀ c, inside c → c.index < lib.classes.size
  basic : ∀ c, inside c → (lib.classOf c).Basic ok
  unique : ∀ c, inside c → (lib.classOf c).symbols.keys.Nodup
  components : ∀ c, inside c → ∀ s ∈ (lib.classOf c).symbols.values, lib.Component ok inside s
  apart : ∀ c, inside c → ∀ e ∈ (lib.classOf c).symbols.entries,
    ∀ e' ∈ (lib.classOf c).symbols.entries, e.1 ≠ e'.1 →
      e.2 ≠ e'.2 ∧ ∀ d, (lib.symbolOf e'.2).type = .instance_ d → ¬ lib.Contains d e.2
  acyclic : ∀ c, inside c → ∀ s ∈ (lib.classOf c).symbols.values,
    ∀ d, (lib.symbolOf s).type = .instance_ d → ¬ lib.Contains d s

def Bottoms (lib : Library) : Nat → ClassId → Prop
  | 0, _ => False
  | fuel + 1, c => ∀ s ∈ (lib.classOf c).symbols.values, ∀ d, (lib.symbolOf s).type = .instance_ d →
    (lib.classOf d).type ≠ "__builtin" → lib.Bottoms fuel d

variable {ok : String → Bool} {inside : ClassId → Prop} {renamed : SymbolId → Prop}
  {lib now next : Library} {c : ClassId} {s : SymbolId}

theorem Laid.contains_known (laid : lib.Laid ok inside) (holds : lib.Contains c s) (within : inside c) :
    s.In lib := by
  induction holds with
  | own member => exact (laid.components _ within _ member).known
  | @deeper c d s t member type holds ih =>
    have shape := (laid.components _ within _ member).shape
    rw [type] at shape
    generalize (lib.symbolOf t).connectorType = kept at shape
    cases shape with
    | value wraps =>
      obtain ⟨v, r, only, known, named, -⟩ := wraps.value
      have same : ∀ u ∈ (lib.classOf d).symbols.values, u = v := by
        intro u listed
        rw [OrderedMap.values, only] at listed
        exact List.mem_singleton.1 listed
      cases holds with
      | own listed => exact same s listed ▸ known
      | deeper listed type' _ =>
        rw [same _ listed, named] at type'
        cases type'
    | inner within _ _ | plug within _ => exact ih within

theorem not_leaf (type : (lib.symbolOf s).type = .instance_ c)
    (kind : (lib.classOf c).type ≠ "__builtin") : ¬ lib.Leaf s := by
  rintro (⟨r, named⟩ | ⟨d, other, builtin⟩)
  · rw [type] at named
    cases named
  · rw [type] at other
    cases other
    exact kind builtin

theorem Wraps.unmoved (wraps : lib.Wraps ok c) (kept : lib.Unmoved ok renamed next) : next.Wraps ok c := by
  obtain ⟨v, r, only, there, named, holds⟩ := wraps.value
  have same := kept.classOf c wraps.known
  refine ⟨wraps.known.trans_le kept.moreClasses, same ▸ wraps.kind, v, r, same ▸ only,
    there.trans_le kept.moreSymbols, ?_, holds⟩
  cases kept.moved v there with
  | same type _ => exact type.trans named
  | value _ _ old | socket _ _ old => rw [named] at old; contradiction

section AddFlat

variable (inner : ClassId → String → Flat) (f : Flat) (name : String)

theorem addFlat_leaf (leaf : lib.Leaf s) :
    lib.addFlat inner f name s = f.insert name ((lib.symbolOf s).dimensions, false) := by
  unfold addFlat
  obtain ⟨r, type⟩ | ⟨c, type, builtin⟩ := leaf
  · rw [type]
  · rw [type]
    simp only [builtin, if_true]

theorem addFlat_inner (type : (lib.symbolOf s).type = .instance_ c)
    (builtin : (lib.classOf c).type ≠ "__builtin") (connector : (lib.classOf c).type ≠ "connector") :
    lib.addFlat inner f name s = f.merge ((inner c name).under (lib.symbolOf s).dimensions) := by
  unfold addFlat
  rw [type]
  simp only [builtin, connector, if_false]

theorem addFlat_plug (type : (lib.symbolOf s).type = .instance_ c) (plug : lib.Plug c) : lib.addFlat inner f name s =
      (f.merge ((inner c name).under (lib.symbolOf s).dimensions)).insert name ((lib.symbolOf s).dimensions, true) := by
  unfold addFlat
  rw [type]
  simp only [plug.kind, if_true, show ("connector" = "__builtin") = False by decide, if_false]

end AddFlat

theorem flat_of_leaves (fuel : Nat) (name : String) (silent : (lib.classOf c).Silent)
    (leaves : ∀ s ∈ (lib.classOf c).symbols.values, lib.Leaf s) :
    (lib.flat fuel c name).initialEquations = [] ∧ (lib.flat fuel c name).equations = [] ∧
      (lib.flat fuel c name).constraints = [] ∧ (lib.flat fuel c name).initialStatements = [] ∧
      (lib.flat fuel c name).statements = [] ∧
      ∀ v ∈ (lib.flat fuel c name).symbols.values, v.2 = false := by
  cases fuel with
  | zero => exact ⟨rfl, rfl, rfl, rfl, rfl, by rintro _ ⟨⟩⟩
  | succ fuel =>
    have folded : ∀ (es : List (String × SymbolId)) (f : Flat), (∀ e ∈ es, lib.Leaf e.2) →
        (∀ v ∈ f.symbols.values, v.2 = false) →
        ∃ symbols : OrderedMap String (List (List Expr) × Bool),
          es.foldl (fun f e => lib.addFlat (lib.flat fuel) f (inFront name ++ e.1) e.2) f =
            { f with symbols := symbols } ∧ ∀ v ∈ symbols.values, v.2 = false := by
      intro es
      induction es with
      | nil => exact fun f _ plain => ⟨f.symbols, rfl, plain⟩
      | cons e es ih =>
        intro f leaves plain
        rw [List.foldl_cons, addFlat_leaf _ _ _ (leaves e List.mem_cons_self)]
        refine ih (f.insert _ _) (fun e member => leaves e (List.mem_cons_of_mem _ member)) fun v member => ?_
        obtain ⟨entry, listed, rfl⟩ := List.mem_map.1 member
        obtain rfl | old := mem_entries_insert _ _ _ entry listed
        · rfl
        · exact plain entry.2 (mem_map_of_mem old)
    obtain ⟨symbols, same, plain⟩ := folded (lib.classOf c).symbols.entries {}
      (fun e member => leaves e.2 (mem_map_of_mem member)) (by rintro _ ⟨⟩)
    obtain ⟨none₁, none₂, none₃, none₄, none₅⟩ := silent
    unfold flat
    simp only [same, Flat.addQualified, Flat.qualify, none₁, none₂, none₃, none₄, none₅, List.map_nil,
      append_nil, true_and]
    intro v member
    obtain ⟨entry, listed, rfl⟩ := List.mem_map.1 member
    obtain ⟨old, there, rfl⟩ := List.mem_map.1 listed
    exact plain old.2 (mem_map_of_mem there)

structure Widened (outer : List (List Expr)) (values : List SymbolId) (now next : Library) : Prop where
  classes : next.classes = now.classes
  size : next.symbols.size = now.symbols.size
  symbolOf : ∀ t, next.symbolOf t = if t ∈ values then
    { now.symbolOf t with dimensions := outer ++ (now.symbolOf t).dimensions } else now.symbolOf t

namespace Widened

variable {outer : List (List Expr)} {values : List SymbolId} (widened : Widened outer values now next)
  (bare : ∀ e ∈ outer.flatten, e.bare = true)

include widened

theorem classOf (c : ClassId) : next.classOf c = now.classOf c := by
  rw [Library.classOf, Library.classOf, widened.classes]

theorem connectorType (t : SymbolId) : (next.symbolOf t).connectorType = (now.symbolOf t).connectorType := by
  rw [widened.symbolOf]
  split <;> rfl

theorem type (t : SymbolId) : (next.symbolOf t).type = (now.symbolOf t).type := by
  rw [widened.symbolOf]
  split <;> rfl

theorem name (t : SymbolId) : (next.symbolOf t).name = (now.symbolOf t).name := by
  rw [widened.symbolOf]
  split <;> rfl

theorem view (all : (now.classOf c).symbols.values = values) : next.view c = (now.view c).under outer := by
  have symbols : (now.classOf c).symbols.mapValues next.facet =
      ((now.classOf c).symbols.mapValues now.facet).mapValues fun v => (outer ++ v.1, v.2) := by
    rw [mapValues_congr next.facet (fun t => (outer ++ (now.facet t).1, (now.facet t).2))]
    · simp [OrderedMap.mapValues]
    · intro t member
      rw [facet, widened.symbolOf, if_pos (all ▸ member)]
      rfl
  unfold Library.view Flat.under
  rw [widened.classOf, symbols]

include bare

theorem dimensions (t : SymbolId) (own : ∀ e ∈ (now.symbolOf t).dimensions.flatten, e.bare = true) :
    ∀ e ∈ (next.symbolOf t).dimensions.flatten, e.bare = true := by
  rw [widened.symbolOf]
  split
  · show ∀ e ∈ (outer ++ (now.symbolOf t).dimensions).flatten, _
    rw [List.flatten_append]
    intro e member
    obtain first | later := List.mem_append.1 member
    · exact bare e first
    · exact own e later
  · exact own

theorem variable_ (v : now.Variable ok s) : next.Variable ok s :=
  ⟨widened.size ▸ v.known, (widened.type s).symm ▸ v.type, widened.dimensions bare s v.bare,
    (widened.connectorType s).trans v.connectorType⟩

theorem bundle (b : now.Bundle ok c) : next.Bundle ok c :=
  b.of_eq (widened.classOf c) (widened.classes ▸ b.known) fun s member => widened.variable_ bare (b.members s member)

theorem placed {bound : Nat} (p : now.Placed ok bound s) : next.Placed ok bound s := by
  refine p.imp (widened.variable_ bare) ?_
  rintro ⟨c, socket, larger, origin⟩
  refine ⟨c, ?_, larger, ?_⟩
  · refine ⟨widened.size ▸ socket.known, (widened.type s).symm ▸ socket.type,
      widened.dimensions bare s socket.bare, (widened.connectorType s).trans socket.connectorType,
      widened.bundle bare socket.bundle, ?_, ?_⟩
    · rw [widened.classOf]
      exact widened.bundle bare socket.origin
    · rw [widened.classOf, widened.classOf]
      exact socket.parent
  · rw [widened.classOf]
    exact origin

end Widened

end Library

namespace Build

open Library

variable {ok : String → Bool} {inside : ClassId → Prop} {lib now mid next : Library}
  {id flat c : ClassId} {s : SymbolId} {f : Flat} {done : List (String × SymbolId)}

structure Laying (ok : String → Bool) (lib : Library) (id : ClassId) (now : Library) (flat : ClassId)
    (f : Flat) (done : List (String × SymbolId)) (next : Library) : Prop where
  growing : Growing ok (lib.Contains id) now flat (lib.classOf id).type f next
  named : ∀ e ∈ (next.classOf flat).symbols.entries, (next.symbolOf e.2).name = e.1
  source : ∀ t ∈ (next.classOf flat).symbols.values, now.symbols.size ≤ t.index ∨ t ∈ done.map Prod.snd
  settled : ∀ e ∈ done, lib.Leaf e.2 → next.Variable ok e.2

structure Coming (ok : String → Bool) (inside : ClassId → Prop) (lib : Library) (id : ClassId)
    (now : Library) (done : List (String × SymbolId)) (key : String) (s : SymbolId) : Prop where
  laid : lib.Laid ok inside
  within : inside id
  start : lib.Unmoved ok (fun _ => True) now
  all : ∃ rest, (lib.classOf id).symbols.entries = done ++ (key, s) :: rest

namespace Coming

variable {key : String} (coming : Coming ok inside lib id now done key s)

include coming

theorem entry : (key, s) ∈ (lib.classOf id).symbols.entries := by
  obtain ⟨rest, all⟩ := coming.all
  simp [all]

theorem own : s ∈ (lib.classOf id).symbols.values := mem_map_of_mem coming.entry

theorem component : lib.Component ok inside s := coming.laid.components id coming.within s coming.own

theorem notInside (type : (lib.symbolOf s).type = .instance_ c) : ¬ lib.Contains c s :=
  coming.laid.acyclic id coming.within s coming.own c type

end Coming

namespace Laying

section

variable (laying : Laying ok lib id now flat f done mid)
include laying

theorem later {renamed : SymbolId → Prop} (unmoved : mid.Unmoved ok renamed next) (light : next.Light ok)
    (within : ∀ t, renamed t → lib.Contains id t)
    (apart : ∀ t ∈ (mid.classOf flat).symbols.values, ¬ renamed t) : Laying ok lib id now flat f done next := by
  have same := unmoved.classOf flat laying.growing.known
  refine ⟨laying.growing.later (unmoved.weaken fun t _ => within t) light, ?_, ?_, fun e member leaf =>
    (laying.settled e member leaf).unmoved unmoved⟩
  · rw [same]
    intro e member
    have listed : e.2 ∈ (mid.classOf flat).symbols.values := mem_map_of_mem member
    rw [unmoved.name e.2 (laying.growing.placed e.2 listed).known (apart e.2 listed)]
    exact laying.named e member
  · rw [same]
    exact laying.source

theorem insert (name key : String) (s : SymbolId) (called : (mid.symbolOf s).name = name)
    (placed : mid.Placed ok flat.index s) (leaf : lib.Leaf s → mid.Variable ok s) :
    Laying ok lib id now flat (f.insert name (mid.facet s)) (done ++ [(key, s)])
      (mid.modifyClass flat fun d => { d with symbols := d.symbols.insert name s }) := by
  have stored := (classOf_modifyClass_self mid flat · laying.growing.known)
  refine ⟨laying.growing.insert name s placed, ?_, ?_, ?_⟩
  · rw [stored]
    intro e member
    obtain rfl | old := mem_entries_insert _ name s e member
    · exact called
    · exact laying.named e old
  · rw [stored]
    intro t member
    obtain ⟨e, listed, rfl⟩ := List.mem_map.1 member
    rw [map_append, List.mem_append]
    obtain rfl | old := mem_entries_insert _ name s e listed
    · exact .inr (.inr (List.mem_singleton_self _))
    · exact (laying.source e.2 (mem_map_of_mem old)).imp_right .inl
  · intro e member isLeaf
    obtain old | new := List.mem_append.1 member
    · exact (laying.settled e old isLeaf).modifyClass flat _
    · rw [List.mem_singleton.1 new] at isLeaf ⊢
      exact (leaf isLeaf).modifyClass flat _

theorem merge (inner : ClassId) (hollow : (mid.classOf inner).Hollow inner)
    (placed : ∀ t ∈ (mid.classOf inner).symbols.values, mid.Placed ok flat.index t)
    (named : ∀ e ∈ (mid.classOf inner).symbols.entries, (mid.symbolOf e.2).name = e.1)
    (fresh : ∀ t ∈ (mid.classOf inner).symbols.values, t.New now) :
    Laying ok lib id now flat (f.merge (mid.view inner)) done
      (mid.modifyClass flat fun d => d.merge (mid.classOf inner)) := by
  have stored := (classOf_modifyClass_self mid flat · laying.growing.known)
  refine ⟨laying.growing.merge inner hollow placed, ?_, ?_, fun e member leaf =>
    (laying.settled e member leaf).modifyClass flat _⟩
  · rw [stored]
    intro e member
    obtain old | new := mem_entries_union _ _ e member
    · exact laying.named e old
    · exact named e new
  · rw [stored]
    intro t member
    obtain ⟨e, listed, rfl⟩ := List.mem_map.1 member
    obtain old | new := mem_entries_union _ _ e listed
    · exact laying.source e.2 (mem_map_of_mem old)
    · exact .inl (fresh e.2 (mem_map_of_mem new))

theorem append (key : String) (leaf : ¬ lib.Leaf s) : Laying ok lib id now flat f (done ++ [(key, s)]) mid := by
  refine ⟨laying.growing, laying.named, fun t member => ?_, fun e member isLeaf => ?_⟩
  · rw [map_append, List.mem_append]
    exact (laying.source t member).imp_right .inl
  · obtain old | new := List.mem_append.1 member
    · exact laying.settled e old isLeaf
    · rw [List.mem_singleton.1 new] at isLeaf
      exact absurd isLeaf leaf

end

theorem apart (laying : Laying ok lib id now flat f done mid) {key : String}
    (coming : Coming ok inside lib id now done key s) {t : SymbolId} (member : t ∈ (mid.classOf flat).symbols.values) :
    t ≠ s ∧ ∀ d, (lib.symbolOf s).type = .instance_ d → inside d → ¬ lib.Contains d t := by
  have more := coming.start.moreSymbols
  obtain new | old := laying.source t member
  · refine ⟨?_, fun d _ deeper contains => ?_⟩
    · rintro rfl
      have known := coming.component.known
      omega
    · have known := coming.laid.contains_known contains deeper
      omega
  · obtain ⟨rest, all⟩ := coming.all
    obtain ⟨e, listed, rfl⟩ := List.mem_map.1 old
    have differ : e.1 ≠ key := ne_of_mem_of_not_mem (mem_map_of_mem listed)
      (not_mem_done (coming.laid.unique id coming.within) all)
    have apart := coming.laid.apart id coming.within e (by simp [all, listed]) (key, s) coming.entry differ
    exact ⟨apart.1, fun d type _ => apart.2 d type⟩

end Laying

theorem widen_values (values : List SymbolId) (distinct : values.Nodup) (outer : List (List Expr))
    (now : Library) (known : ∀ t ∈ values, t.In now) (light : now.Light ok)
    (lightOuter : ∀ e ∈ outer.flatten, e.light ok = true) {base : Library} {renamed : SymbolId → Prop}
    (unmoved : base.Unmoved ok renamed now) (new : ∀ t ∈ values, t.New base) :
    (forIn values PUnit.unit fun t _ => do
      updateSymbol t fun e => { e with dimensions := outer ++ e.dimensions }
      pure (ForInStep.yield PUnit.unit)).Ensures now (fun _ next => Widened outer values now next ∧
        next.Light ok ∧ base.Unmoved ok renamed next) anyhow := by
  refine ensures_forIn values _ _ (fun done _ next => Widened outer done now next ∧ next.Light ok ∧
    base.Unmoved ok renamed next) ⟨⟨rfl, rfl, fun t => by simp⟩, light, unmoved⟩ ?_ fun _ _ => id
  rintro done t rest ⟨⟩ mid rfl ⟨widened, light, unmoved⟩
  rw [ensures_bind, ensures_updateSymbol, ensures_pure]
  have absent : t ∉ done := by
    intro member
    rw [List.nodup_append] at distinct
    exact distinct.2.2 t member t (by simp) rfl
  have there : t.index < mid.symbols.size := widened.size.symm ▸ known t (by simp)
  have before : mid.symbolOf t = now.symbolOf t := by rw [widened.symbolOf, if_neg absent]
  refine ⟨⟨widened.classes, (symbols_size_modifySymbol mid t _).trans widened.size, fun u => ?_⟩,
    light.modifySymbol t _ ?_, unmoved.modifyNew t (new t (by simp)) _⟩
  · obtain rfl | differ := eq_or_ne t u
    · rw [symbolOf_modifySymbol_self mid t _ there, before]
      simp
    · rw [symbolOf_modifySymbol_ne mid t u _ differ, widened.symbolOf]
      simp [differ.symm]
  · have old := (Symbol.light_iff ok _).1 (light.symbols t)
    refine (Symbol.light_iff ok _).2 ⟨old.1, ?_, fun a => by
      have attr := old.2.2 a
      cases a <;> exact attr⟩
    show ∀ e ∈ (outer ++ (mid.symbolOf t).dimensions).flatten, _
    rw [List.flatten_append]
    intro e member
    obtain first | later := List.mem_append.1 member
    · exact lightOuter e first
    · exact old.2.1 e later

structure Flattened (ok : String → Bool) (lib : Library) (fuel : Nat) (id : ClassId) (name : String)
    (now : Library) (flat : ClassId) (next : Library) : Prop where
  growing : Growing ok (lib.Contains id) now flat (lib.classOf id).type (lib.flat fuel id name) next
  named : ∀ e ∈ (next.classOf flat).symbols.entries, (next.symbolOf e.2).name = e.1
  fresh : ∀ t ∈ (next.classOf flat).symbols.values, now.symbols.size ≤ t.index
  distinct : (next.classOf flat).symbols.values.Nodup
  settled : ∀ s ∈ (lib.classOf id).symbols.values, lib.Leaf s → next.Variable ok s
  bottoms : lib.Bottoms fuel id
  sockets : ∀ t ∈ (next.classOf flat).symbols.values, ∀ d, (next.symbolOf t).connectorType = some d →
    ∀ m ∈ (next.classOf d).symbols.values, m ∉ (next.classOf flat).symbols.values

def Flattens (ok : String → Bool) (fuel : Nat) : Prop :=
  ∀ (inside : ClassId → Prop) (lib : Library) id name now, lib.Laid ok inside → inside id →
    lib.Unmoved ok (fun _ => True) now → now.Light ok →
    (flattenInstance fuel id name).Ensures now
      (fun flat next => Flattened ok lib fuel id name now flat next) fun _ _ => True

structure KeptBundle (ok : String → Bool) (now : Library) (c kept : ClassId) (next : Library) : Prop where
  light : next.Light ok
  unmoved : now.Unmoved ok (· ∈ (now.classOf c).symbols.values) next
  new : now.classes.size ≤ kept.index
  bundle : next.Bundle ok kept
  origin : (next.classOf kept).origin = kept
  parent : (next.classOf kept).parent = none

theorem flattenClass_bundle {fuel : Nat} (ih : ∀ less < fuel, Flattens ok less) (light : now.Light ok)
    (bundle : now.Bundle ok c) :
    (flattenClass fuel c).Ensures now (fun kept next => KeptBundle ok now c kept next) anyhow := by
  cases fuel with
  | zero =>
    unfold flattenClass
    exact .throw
  | succ fuel =>
    unfold flattenClass depthLimit
    simp only [bind_pure_comp, ensures_bind, ensures_map, ensures_get, ensures_classOf]
    refine (instantiate_bundle _ c _ light bundle).imp fun k mid same => ?_
    refine (pullConstants_bundle same.light k same.bundle same.imports same.role).imp ?_
    rintro _ mid rfl
    have named : ∀ s ∈ (mid.classOf k).symbols.values, ∃ r, (mid.symbolOf s).type = .named r := by
      intro s member
      obtain ⟨r, type, -⟩ := (same.bundle.members s member).type
      exact ⟨r, type⟩
    have laid : mid.Laid ok (· = k) := by
      refine ⟨?_, ?_, ?_, ?_, ?_, ?_⟩
      all_goals rintro _ rfl
      · exact same.bundle.known
      · obtain ⟨none₁, none₂, none₃, none₄, none₅⟩ := same.bundle.silent
        refine ⟨?_, ?_, ?_, ?_, ?_⟩ <;> simp only [none₁, none₂, none₃, none₄, none₅] <;>
          rintro _ ⟨⟩
      · exact same.bundle.unique.1
      · intro s member
        have variable_ := same.bundle.members s member
        obtain ⟨r, type, holds⟩ := variable_.type
        refine ⟨variable_.known, variable_.bare, ?_⟩
        rw [type, variable_.connectorType]
        exact .elementary holds
      · intro e first e' second differ
        refine ⟨fun itself => differ ?_, fun d type => ?_⟩
        · exact congrArg Prod.fst (List.inj_on_of_nodup_map same.bundle.unique.2 first second itself)
        obtain ⟨r, named⟩ := named e'.2 (mem_map_of_mem second)
        rw [named] at type
        cases type
      · intro s member d type
        obtain ⟨r, named⟩ := named s member
        rw [named] at type
        cases type
    refine (ih fuel (Nat.lt_succ_self _) _ mid k "" mid laid rfl (.refl mid) same.light).imp ?_
    intro kept next flattened
    obtain ⟨none₁, none₂, none₃, none₄, none₅, plain⟩ := flat_of_leaves fuel "" same.bundle.silent
      fun s member => .inl (named s member)
    have growing := flattened.growing
    have view := growing.view
    have own : ∀ t, mid.Contains k t → t ∈ (now.classOf c).symbols.values := by
      intro t contains
      rw [← same.symbols]
      cases contains with
      | own member => exact member
      | deeper member type _ =>
        obtain ⟨r, named⟩ := named _ member
        rw [named] at type
        cases type
    refine ⟨growing.light, (Steady.unmoved same.steady).trans (growing.unmoved.weaken fun t _ => own t), ?_,
      ⟨growing.known, ?_, growing.hollow.extends_, growing.hollow.classes,
      growing.hollow.functions, ?_, ⟨growing.unique, flattened.distinct⟩, fun t member => ?_⟩, growing.hollow.origin,
      growing.hollow.parent⟩
    · exact same.steady.moreClasses.trans growing.new
    · rw [growing.type]
      exact same.bundle.kind
    · rw [← view] at none₁ none₂ none₃ none₄ none₅
      exact ⟨none₁, none₂, none₃, none₄, none₅⟩
    · obtain variable_ | ⟨d, socket, -⟩ := growing.placed t member
      · exact variable_
      · have facet := plain (next.facet t) (by
          obtain ⟨e, listed, rfl⟩ := List.mem_map.1 member
          rw [← view]
          exact mem_map_of_mem (mem_map_of_mem listed))
        rw [Library.facet, socket.connectorType] at facet
        cases facet

theorem modifySymbol_modifySymbol (lib : Library) (s : SymbolId) (f g : Symbol → Symbol) :
    (lib.modifySymbol s f).modifySymbol s g = lib.modifySymbol s fun e => g (f e) := by
  have twice : (lib.symbols.modify s.index f).modify s.index g = lib.symbols.modify s.index fun e => g (f e) := by
    rw [← Array.toList_inj, Array.toList_modify, Array.toList_modify, Array.toList_modify, List.modify_modify_eq]
    rfl
  exact congrArg (fun t => { lib with symbols := t }) twice

theorem modifyClass_modifySymbol (lib : Library) (c : ClassId) (s : SymbolId) (f : ClassDef → ClassDef)
    (g : Symbol → Symbol) : (lib.modifyClass c f).modifySymbol s g = (lib.modifySymbol s g).modifyClass c f :=
  rfl

section Value

def taking (value d : Symbol) : Symbol :=
  { Attribute.all.foldl (fun d a => d.setAttr a (value.attr a)) d with type := value.type }

theorem skeleton_foldl (value : Symbol) (as : List Attribute) (d : Symbol) :
    (as.foldl (fun d a => d.setAttr a (value.attr a)) d).skeleton = d.skeleton := by
  induction as generalizing d with
  | nil => rfl
  | cons a as ih => rw [List.foldl_cons, ih, Symbol.skeleton_setAttr]

theorem taking_eq (value d : Symbol) : (taking value d).name = d.name ∧ (taking value d).type = value.type ∧
      (taking value d).dimensions = d.dimensions ∧
      (taking value d).connectorType = d.connectorType := by
  have same := skeleton_foldl value Attribute.all d
  unfold taking
  generalize Attribute.all.foldl (fun d a => d.setAttr a (value.attr a)) d = e at same
  exact ⟨congrArg Skeleton.name same, rfl, congrArg Skeleton.dimensions same, congrArg Skeleton.connectorType same⟩

theorem light_foldl (value : Symbol) (as : List Attribute) (d : Symbol) (light : d.light ok = true)
    (values : ∀ a, (value.attr a).light ok = true) :
    (as.foldl (fun d a => d.setAttr a (value.attr a)) d).light ok = true := by
  induction as generalizing d with
  | nil => exact light
  | cons a as ih => exact ih _ (d.light_setAttr a _ light (values a))

theorem light_taking (value d : Symbol) (light : d.light ok = true) (given : value.light ok = true) :
    (taking value d).light ok = true := by
  have values := (Symbol.light_iff ok value).1 given
  have whole := light_foldl value Attribute.all d light values.2.2
  unfold taking
  generalize Attribute.all.foldl (fun d a => d.setAttr a (value.attr a)) d = e at whole
  have old := (Symbol.light_iff ok e).1 whole
  exact (Symbol.light_iff ok _).2 ⟨values.1, old.2.1, fun a => by
    have attr := old.2.2 a
    cases a <;> exact attr⟩

structure Valued (ok : String → Bool) (s : SymbolId) (mid next : Library) : Prop where
  light : next.Light ok
  unmoved : mid.Unmoved ok (· = s) next
  variable_ : next.Variable ok s
  name : (next.symbolOf s).name = (mid.symbolOf s).name

theorem takeValue_taken (light : mid.Light ok) (known : s.In mid)
    (bare : ∀ e ∈ (mid.symbolOf s).dimensions.flatten, e.bare = true)
    (type : (mid.symbolOf s).type = .instance_ c) (kept : (mid.symbolOf s).connectorType = none)
    (wraps : mid.Wraps ok c) (other : flat ≠ c) (enter : ClassDef → ClassDef) :
    (takeValue s c).Ensures (mid.modifyClass flat enter) (fun _ next => ∃ after,
      next = after.modifyClass flat enter ∧ Valued ok s mid after) anyhow := by
  obtain ⟨v, r, only, there, named, holds⟩ := wraps.value
  have stored := classOf_modifyClass_ne mid flat c enter other
  have found : ((mid.modifyClass flat enter).classOf c).symbols.find? "__value" = some v := by
    rw [stored, OrderedMap.find?, only]
    rfl
  -- whatever has been done to the modification, the last step makes a variable of the component
  have finish : ∀ now : Library, now.Light ok → mid.Unmoved ok (· = s) now →
      (now.symbolOf s).skeleton = (mid.symbolOf s).skeleton →
      Valued ok s mid (now.modifySymbol s (taking (mid.symbolOf v))) := by
    intro now lightNow unmoved same
    have here : s.In now := known.trans_le unmoved.moreSymbols
    have self := symbolOf_modifySymbol_self now s (taking (mid.symbolOf v)) here
    obtain ⟨called, type', dims, conn⟩ := taking_eq (mid.symbolOf v) (now.symbolOf s)
    rw [named] at type'
    have typeNow : (now.symbolOf s).type = .instance_ c := (congrArg Skeleton.type same).trans type
    refine ⟨lightNow.modifySymbol s _ (light_taking _ _ (lightNow.symbols s) (light.symbols v)), ?_,
      ⟨?_, ?_, ?_, ?_⟩, ?_⟩
    · refine unmoved.trans (Unmoved.modifySymbol now s _
        (.value c r typeNow (fun _ => ?_) type' holds conn) dims (.inl rfl))
      rw [unmoved.classOf c wraps.known]
      exact wraps.kind
    · simpa using here
    · rw [self]
      exact ⟨r, type', holds⟩
    · rw [self, dims, show (now.symbolOf s).dimensions = _ from congrArg Skeleton.dimensions same]
      exact bare
    · rw [self, conn]
      exact (congrArg Skeleton.connectorType same).trans kept
    · rw [self, called]
      exact congrArg Skeleton.name same
  unfold takeValue symbolEntry
  simp only [ensures_bind, ensures_classOf, found, ensures_pure, ensures_symbolOf]
  split
  · next m has =>
    split
    · next n _ =>
      simp only [appendArguments, argumentsOf, ensures_bind, ensures_modificationOf, ensures_pure,
        ensures_updateModification, ensures_updateSymbol]
      refine ⟨(mid.modifyModification m (· ++ (mid.modificationOf n).arguments)).modifySymbol s
        (taking (mid.symbolOf v)), rfl, finish _ (light.modifyModification m _) ?_ rfl⟩
      exact Steady.unmoved ((Steady.refl _ mid).modifyModification m _)
    · exact .throw
  · simp only [ensures_bind, ensures_updateSymbol]
    have self := (symbolOf_modifySymbol_self mid s · known)
    refine ⟨(mid.modifySymbol s fun d => { d with modification := (mid.symbolOf v).modification }).modifySymbol
      s (taking (mid.symbolOf v)), rfl, finish _ (light.modifySymbol s _ (light.symbols s)) ?_ ?_⟩
    · exact Unmoved.modifySymbol mid s _ (.same rfl rfl) rfl (.inl rfl)
    · rw [self]
      rfl

end Value

namespace Laying

variable {name key : String} (inner : ClassId → String → Flat)

theorem enterVariable (laying : Laying ok lib id now flat f done mid)
    (called : (mid.symbolOf s).name = name) (variable_ : mid.Variable ok s)
    (dims : (mid.symbolOf s).dimensions = (lib.symbolOf s).dimensions) (leaf : lib.Leaf s) :
    (addFlatSymbol flat s).Ensures mid (fun _ next =>
      Laying ok lib id now flat (lib.addFlat inner f name s) (done ++ [(key, s)]) next)
      anyhow := by
  have facet : mid.facet s = ((lib.symbolOf s).dimensions, false) := by
    rw [Library.facet, variable_.connectorType, dims]
    rfl
  unfold addFlatSymbol
  simp only [ensures_bind, ensures_symbolOf, ensures_updateClass, called]
  rw [addFlat_leaf _ _ _ leaf, ← facet]
  exact laying.insert name key s called (.inl variable_) fun _ => variable_

section

variable (coming : Coming ok inside lib id now done key s) (laying : Laying ok lib id now flat f done mid)
include coming laying

theorem enterValue (called : (mid.symbolOf s).name = name) (known : s.In mid)
    (bare : ∀ e ∈ (mid.symbolOf s).dimensions.flatten, e.bare = true)
    (type : (mid.symbolOf s).type = .instance_ c) (kept : (mid.symbolOf s).connectorType = none)
    (wraps : mid.Wraps ok c) (other : flat ≠ c)
    (dims : (mid.symbolOf s).dimensions = (lib.symbolOf s).dimensions) (leaf : lib.Leaf s) :
    (do addFlatSymbol flat s; takeValue s c).Ensures mid (fun _ next =>
      Laying ok lib id now flat (lib.addFlat inner f name s) (done ++ [(key, s)]) next)
      anyhow := by
  unfold addFlatSymbol
  simp only [ensures_bind, ensures_symbolOf, ensures_updateClass, called]
  refine (takeValue_taken laying.growing.light known bare type kept wraps other _).imp ?_
  rintro ⟨⟩ _ ⟨after, rfl, taken⟩
  have facet : after.facet s = ((lib.symbolOf s).dimensions, false) := by
    rw [Library.facet, taken.variable_.connectorType, taken.unmoved.dimensions s known, dims]
    rfl
  have later := laying.later taken.unmoved taken.light
    (fun t same => same ▸ .own coming.own) fun t member => (laying.apart coming member).1
  rw [addFlat_leaf _ _ _ leaf, ← facet]
  exact later.insert name key s (taken.name.trans called) (.inl taken.variable_) fun _ => taken.variable_

theorem enterInner {fuel : Nat} (flattens : Flattens ok fuel)
    (type : (lib.symbolOf s).type = .instance_ c) (deeper : inside c) :
    (flattenInstance fuel c name).Ensures mid (fun inner mid₁ =>
      (addInstance flat inner (mid₁.symbolOf s).dimensions).Ensures mid₁ (fun _ next =>
        Laying ok lib id now flat (f.merge ((lib.flat fuel c name).under (lib.symbolOf s).dimensions))
          done next ∧ (next.symbolOf s).skeleton = (mid.symbolOf s).skeleton ∧
        (∀ t ∈ (lib.classOf c).symbols.values, lib.Leaf t → next.Variable ok t) ∧ lib.Bottoms fuel c)
      anyhow) anyhow := by
  have component := coming.component
  have start := coming.start.trans (laying.growing.unmoved.weaken fun _ _ _ => trivial)
  refine (flattens inside lib c name mid coming.laid deeper start laying.growing.light).imp ?_
  rintro inner mid₁ flattened
  have known : s.In mid := component.known.trans_le start.moreSymbols
  have dims : (mid₁.symbolOf s).dimensions = (lib.symbolOf s).dimensions := by
    rw [flattened.growing.unmoved.dimensions s known, start.dimensions s component.known]
  have lightOuter : ∀ e ∈ (lib.symbolOf s).dimensions.flatten, e.light ok = true := by
    rw [← dims]
    exact ((Symbol.light_iff ok _).1 (flattened.growing.light.symbols s)).2.1
  unfold addInstance
  simp only [ensures_bind, ensures_classOf, dims]
  refine (widen_values _ flattened.distinct _ mid₁
    (fun t member => (flattened.growing.placed t member).known) flattened.growing.light lightOuter
    flattened.growing.unmoved flattened.fresh).imp ?_
  rintro ⟨⟩ mid₂ ⟨widened, light, unmoved⟩
  have later := laying.later unmoved light (fun t holds => .deeper coming.own type holds)
    fun t member => (laying.apart coming member).2 c type deeper
  have same := widened.classOf inner
  have above : flat.index ≤ inner.index := (laying.growing.known.trans_le flattened.growing.new).le
  have merged := later.merge inner (same ▸ flattened.growing.hollow) ?_ ?_ ?_
  · have view : mid₂.view inner = (lib.flat fuel c name).under (lib.symbolOf s).dimensions := by
      rw [← flattened.growing.view]
      exact widened.view rfl
    rw [view] at merged
    rw [ensures_updateClass]
    refine ⟨merged, unmoved.symbolOf s known (coming.notInside type), fun t member leaf => ?_, flattened.bottoms⟩
    · exact (widened.variable_ component.bare (flattened.settled t member leaf)).modifyClass flat _
  · rw [same]
    exact fun t member => (widened.placed component.bare (flattened.growing.placed t member)).mono above
  · rw [same]
    intro e member
    rw [widened.name]
    exact flattened.named e member
  · rw [same]
    intro t member
    exact laying.growing.unmoved.moreSymbols.trans (flattened.fresh t member)

theorem enterPlug {fuel : Nat} (ih : ∀ less < fuel, Flattens ok less)
    (typeLib : (lib.symbolOf s).type = .instance_ c) (deeper : inside c) (plug : lib.Plug c)
    (settled : ∀ t ∈ (lib.classOf c).symbols.values, lib.Leaf t → mid.Variable ok t)
    (type : (mid.symbolOf s).type = .instance_ c)
    (called : (mid.symbolOf s).name = name) (className : Option String) :
    (do
      let kept ← flattenClass fuel c
      updateSymbol s fun e => { e with connectorType := some kept }
      addFlatSymbol flat s
      updateSymbol s fun e => { e with type := .connector className }).Ensures mid (fun _ next =>
        Laying ok lib id now flat (f.insert name ((lib.symbolOf s).dimensions, true))
          (done ++ [(key, s)]) next) anyhow := by
  have laid := coming.laid
  have component := coming.component
  have start := coming.start.trans (laying.growing.unmoved.weaken fun _ _ _ => trivial)
  have same := start.classOf c (laid.known c deeper)
  have bundle : mid.Bundle ok c := by
    refine ⟨(laid.known c deeper).trans_le start.moreClasses, ?_, ?_, ?_, ?_, ?_, ?_, ?_⟩
    all_goals rw [same]
    · rw [plug.kind]
      decide
    · exact plug.extends_
    · exact plug.classes
    · exact plug.functions
    · exact plug.silent
    · have unique := laid.unique c deeper
      refine ⟨unique, unique.of_map.map_on fun e first e' second itself => Prod.ext ?_ itself⟩
      exact not_imp_not.1 (fun differ => (laid.apart c deeper e first e' second differ).1) itself
    · exact fun t member => settled t member (plug.leaves t member)
  rw [ensures_bind]
  refine (flattenClass_bundle ih laying.growing.light bundle).imp fun kept mid₁ result => ?_
  have contained : ∀ t, t ∈ (mid.classOf c).symbols.values → lib.Contains c t := fun t member => .own (same ▸ member)
  have known : s.In mid := component.known.trans_le start.moreSymbols
  have skeleton := result.unmoved.symbolOf s known fun member => coming.notInside typeLib (contained s member)
  have later := laying.later result.unmoved result.light
    (fun t member => .deeper coming.own typeLib (contained t member)) fun t member holds =>
      (laying.apart coming member).2 c typeLib deeper (contained t holds)
  have known₁ : s.In mid₁ := known.trans_le result.unmoved.moreSymbols
  have type₁ : (mid₁.symbolOf s).type = .instance_ c := (congrArg Skeleton.type skeleton).trans type
  have called₁ : (mid₁.symbolOf s).name = name := (congrArg Skeleton.name skeleton).trans called
  have dims : (mid₁.symbolOf s).dimensions = (lib.symbolOf s).dimensions :=
    (congrArg Skeleton.dimensions skeleton).trans (start.dimensions s component.known)
  -- the two changes of the component, made at once
  let change : Symbol → Symbol := fun e => { e with connectorType := some kept, type := .connector className }
  have self := symbolOf_modifySymbol_self mid₁ s change known₁
  have changed : mid₁.Unmoved ok (· = s) (mid₁.modifySymbol s change) := by
    refine Unmoved.modifySymbol mid₁ s change (.socket c className type₁ (fun _ => ?_) rfl) rfl (.inl rfl)
    rw [result.unmoved.classOf c bundle.known, same]
    exact plug.kind
  have light : (mid₁.modifySymbol s change).Light ok := by
    have old := (Symbol.light_iff ok _).1 (result.light.symbols s)
    exact result.light.modifySymbol s change ((Symbol.light_iff ok _).2 ⟨rfl, old.2.1, fun a => by
      have attr := old.2.2 a
      cases a <;> exact attr⟩)
  have last := later.later changed light
    (fun t same => same ▸ .own coming.own) fun t member => (later.apart coming member).1
  have socket : (mid₁.modifySymbol s change).Socket ok s kept := by
    have stays := result.bundle.unmoved changed
    refine ⟨?_, ⟨className, by rw [self]⟩, ?_, by rw [self], stays, ?_, ?_⟩
    · simpa using known₁
    · rw [self]
      show ∀ e ∈ (mid₁.symbolOf s).dimensions.flatten, _
      rw [dims]
      exact component.bare
    · rw [changed.classOf kept result.bundle.known, result.origin]
      exact stays
    · rw [changed.classOf kept result.bundle.known, result.origin, changed.classOf kept result.bundle.known]
      exact result.parent
  have above : flat.index < kept.index := laying.growing.known.trans_le result.new
  have entered := last.insert name key s (by rw [self]; exact called₁) (.inr ⟨kept, socket, above, ?_⟩) ?_
  · have facet : (mid₁.modifySymbol s change).facet s = ((lib.symbolOf s).dimensions, true) := by
      rw [Library.facet, socket.connectorType, self, ← dims]
      rfl
    rw [facet] at entered
    simp only [ensures_bind, ensures_updateSymbol, addFlatSymbol, ensures_symbolOf, ensures_updateClass]
    rw [symbolOf_modifySymbol_self mid₁ s _ known₁]
    have twice := modifySymbol_modifySymbol mid₁ s (fun e => { e with connectorType := some kept })
      (fun e => { e with type := .connector className })
    rw [modifyClass_modifySymbol, twice]
    simp only [called₁]
    exact entered
  · rw [changed.classOf kept result.bundle.known, result.origin]
    exact above
  · exact fun leaf => absurd leaf (not_leaf typeLib (by rw [plug.kind]; decide))

theorem addComponent {fuel : Nat} (ih : ∀ less ≤ fuel, Flattens ok less) (before : String) :
    (addComponent (flattenInstance fuel) (flattenClass fuel) flat before key s).Ensures mid
      (fun _ next => Laying ok lib id now flat (lib.addFlat (lib.flat fuel) f (before ++ key) s)
        (done ++ [(key, s)]) next ∧ ∀ d, (lib.symbolOf s).type = .instance_ d →
          (lib.classOf d).type ≠ "__builtin" → lib.Bottoms fuel d) anyhow := by
  have component := coming.component
  unfold Build.addComponent
  rw [ensures_bind, ensures_updateSymbol]
  have known : s.In mid := component.known.trans_le
    (coming.start.moreSymbols.trans laying.growing.unmoved.moreSymbols)
  set rename : Symbol → Symbol := fun e =>
    { e with
      name := before ++ key
      prefixes := if before = "" then e.prefixes else stripDirections e.prefixes }
  have self := symbolOf_modifySymbol_self mid s rename known
  have renamed : mid.Unmoved ok (· = s) (mid.modifySymbol s rename) :=
    Unmoved.modifySymbol mid s rename (.same rfl rfl) rfl (.inl rfl)
  have light : (mid.modifySymbol s rename).Light ok := laying.growing.light.modifySymbol s rename
    (laying.growing.light.symbols s)
  replace laying := laying.later renamed light
    (fun t same => same ▸ .own coming.own) fun t member => (laying.apart coming member).1
  have called : ((mid.modifySymbol s rename).symbolOf s).name = before ++ key := by rw [self]
  replace known : s.index < (mid.modifySymbol s rename).symbols.size := by simpa using known
  generalize mid.modifySymbol s rename = mid at *
  have start := coming.start.trans (laying.growing.unmoved.weaken fun _ _ _ => trivial)
  have dims := start.dimensions s component.known
  have bare : ∀ e ∈ (mid.symbolOf s).dimensions.flatten, e.bare = true := dims ▸ component.bare
  have moved := start.moved s component.known
  have shape := component.shape
  rw [bind_symbolOf]
  generalize typeLib : (lib.symbolOf s).type = type at shape
  generalize keptLib : (lib.symbolOf s).connectorType = kept at shape
  -- a component that is still what it was, or has already become what it is going to be
  have named : ∀ r, (mid.symbolOf s).type = .named r → ok r.name = true →
      (mid.symbolOf s).connectorType = none → mid.Variable ok s := fun r type holds none =>
    ⟨known, ⟨r, type, holds⟩, bare, none⟩
  have noInner : lib.Leaf s → ∀ d, type = .instance_ d → (lib.classOf d).type ≠ "__builtin" →
      lib.Bottoms fuel d := fun leaf d same kind => absurd leaf (not_leaf (typeLib.trans same) kind)
  have onlyInner : ∀ c, lib.Bottoms fuel c → ∀ d, SymbolType.instance_ c = .instance_ d →
      (lib.classOf d).type ≠ "__builtin" → lib.Bottoms fuel d := by
    rintro c bottoms d ⟨⟩ _
    exact bottoms
  cases shape with
  | @elementary r holds =>
    have leaf : lib.Leaf s := .inl ⟨r, typeLib⟩
    cases moved with
    | same type' kept' =>
      simp only [type'.trans typeLib]
      exact (laying.enterVariable _ called (named r (type'.trans typeLib) holds (kept'.trans keptLib)) dims
        leaf).imp fun _ _ result => ⟨result, noInner leaf⟩
    | value _ _ old | socket _ _ old => rw [typeLib] at old; contradiction
  | @value c wraps =>
    have leaf : lib.Leaf s := .inr ⟨c, typeLib, wraps.kind⟩
    have stored := start.classOf c wraps.known
    cases moved with
    | same type' kept' =>
      have other : flat ≠ c := by
        rintro rfl
        exact lt_irrefl _ (wraps.known.trans_le (coming.start.moreClasses.trans laying.growing.new))
      have entered := (laying.enterValue (lib.flat fuel) coming called known bare (type'.trans typeLib)
        (kept'.trans keptLib) (wraps.unmoved start) other dims leaf).imp fun _ _ result =>
          And.intro result (noInner leaf)
      simpa only [type'.trans typeLib, ensures_bind, ensures_classOf, stored, wraps.kind, if_true] using entered
    | value _ r _ _ type' holds kept' =>
      simp only [type']
      exact (laying.enterVariable _ called (named r type' holds (kept'.trans keptLib)) dims leaf).imp
        fun _ _ result => ⟨result, noInner leaf⟩
    | socket d _ old connector =>
      rw [typeLib] at old
      cases old
      have both := (connector wraps.known).symm.trans wraps.kind
      exact absurd both (by decide)
  | @inner c _ deeper builtin connector =>
    have there := coming.laid.known c deeper
    have stored := start.classOf c there
    cases moved with
    | same type' _ =>
      simp only [type'.trans typeLib, ensures_bind, ensures_classOf, stored, builtin, connector, if_false,
        ensures_symbolOf, called, ensures_pure]
      refine (laying.enterInner coming (ih fuel le_rfl) typeLib deeper).imp fun inner m entered => ?_
      refine entered.imp ?_
      rintro ⟨⟩ next ⟨result, -, -, bottoms⟩
      rw [addFlat_inner _ _ _ typeLib builtin connector]
      exact ⟨result.append key (not_leaf typeLib builtin), onlyInner c bottoms⟩
    | value d _ old kind =>
      rw [typeLib] at old
      cases old
      exact absurd (kind there) builtin
    | socket d _ old kind =>
      rw [typeLib] at old
      cases old
      exact absurd (kind there) connector
  | @plug c _ deeper plug =>
    have there := coming.laid.known c deeper
    have stored := start.classOf c there
    have differ : ("connector" = "__builtin") = False := by decide
    cases moved with
    | same type' _ =>
      simp only [type'.trans typeLib, ensures_bind, ensures_classOf, stored, plug.kind, differ, if_false,
        if_true, ensures_symbolOf, called]
      refine (laying.enterInner coming (ih fuel le_rfl) typeLib deeper).imp fun inner m entered => ?_
      refine entered.imp ?_
      rintro ⟨⟩ next ⟨result, skeleton, settled, bottoms⟩
      have entered := result.enterPlug coming (fun less small => ih less small.le) typeLib deeper
        plug settled ((congrArg Skeleton.type skeleton).trans (type'.trans typeLib))
        ((congrArg Skeleton.name skeleton).trans called) (lib.classOf c).name
      rw [addFlat_plug _ _ _ typeLib plug]
      simp only [ensures_bind] at entered ⊢
      exact entered.imp fun _ _ first => first.imp fun _ _ second => second.imp fun _ _ result =>
        result.imp fun _ _ last => ⟨last, onlyInner c bottoms⟩
    | value d _ old kind =>
      rw [typeLib] at old
      cases old
      exact absurd ((kind there).symm.trans plug.kind) (by decide)
    | socket _ _ _ _ type' =>
      simp only [type']
      exact .throw

end

end Laying

section Qualify

variable {renamed : SymbolId → Prop} {type : String} {base : Library}

structure CopyOf (ok : String → Bool) (around : Surroundings) (base : Library) (flat : ClassId)
    (next : Library) (e e' : String × SymbolId) : Prop where
  key : e'.1 = e.1
  new : base.symbols.size ≤ e'.2.index
  placed : next.Placed ok flat.index e'.2
  name : (next.symbolOf e'.2).name = e'.1
  facet : next.facet e'.2 = (around.rows (base.facet e.2).1, (base.facet e.2).2)

variable {around : Surroundings} {new : List (String × SymbolId)}

theorem CopyOf.steady {e e' : String × SymbolId} (copy : CopyOf ok around base flat mid e e')
    (steady : mid.Steady never next) (g : ClassDef → ClassDef) :
    CopyOf ok around base flat (next.modifyClass flat g) e e' := by
  have unmoved : mid.Unmoved ok never next := steady.unmoved
  refine ⟨copy.key, copy.new, (copy.placed.unmoved unmoved).modifyClass flat g, ?_, ?_⟩
  · exact (unmoved.name e'.2 copy.placed.known not_false).trans copy.name
  · exact (copy.placed.facet_eq unmoved).trans copy.facet

section Copies

variable {around : Surroundings} {done new : List (String × SymbolId)}
  (copies : List.Forall₂ (CopyOf ok around base flat next) done new)

include copies

theorem exists_copyOf {e' : String × SymbolId} (member : e' ∈ new) : ∃ e, CopyOf ok around base flat next e e' := by
  induction copies with
  | nil => cases member
  | @cons e first done new copy _ ih =>
    obtain rfl | later := List.mem_cons.1 member
    · exact ⟨e, copy⟩
    · exact ih later

theorem keys_of_copies : new.map Prod.fst = done.map Prod.fst := by
  induction copies with
  | nil => rfl
  | cons copy _ ih => rw [map_cons, map_cons, ih, copy.key]

theorem facets_of_copies : new.map (fun e => (e.1, next.facet e.2)) =
    done.map fun e => (e.1, (around.rows (base.facet e.2).1, (base.facet e.2).2)) := by
  induction copies with
  | nil => rfl
  | cons copy _ ih => rw [map_cons, map_cons, ih, copy.key, copy.facet]

end Copies

structure Replacing (ok : String → Bool) (around : Surroundings) (renamed : SymbolId → Prop)
    (now base : Library) (flat : ClassId) (done rest new : List (String × SymbolId)) (next : Library) :
    Prop where
  light : next.Light ok
  unmoved : now.Unmoved ok renamed next
  known : flat.index < next.classes.size
  moreSymbols : base.symbols.size ≤ next.symbols.size
  shape : next.classOf flat = { base.classOf flat with symbols := ⟨new ++ rest⟩ }
  placed : ∀ t, base.Placed ok flat.index t → next.Placed ok flat.index t
  variable_ : ∀ t, base.Variable ok t → next.Variable ok t
  skeleton : ∀ t, t.index < base.symbols.size →
    (next.symbolOf t).skeleton = (base.symbolOf t).skeleton
  copies : List.Forall₂ (CopyOf ok around base flat next) done new
  distinct : (new.map Prod.snd).Nodup
  sockets : ∀ t ∈ new.map Prod.snd, ∀ d, (next.symbolOf t).connectorType = some d →
    ∀ m ∈ (next.classOf d).symbols.values, m ∉ new.map Prod.snd

theorem qualifySymbol_placed (dotted : Dotted ok) (around : Surroundings) (pointed : around.Pointed)
    (light : mid.Light ok) (known : c.In mid) (placed : mid.Placed ok c.index s) :
    (qualifySymbol around s).Ensures mid (fun new next => Copied ok around mid s new next ∧ next.Placed ok c.index new ∧
      (next.symbolOf new).connectorType.isSome = (mid.symbolOf s).connectorType.isSome ∧
      ∀ d, (next.symbolOf new).connectorType = some d → ∀ m ∈ (next.classOf d).symbols.values,
        new.index < m.index) anyhow := by
  obtain variable_ | ⟨d, socket, above, origin⟩ := placed
  · refine (qualifySymbol_variable dotted around pointed s light variable_).imp ?_
    rintro new next ⟨copied, fresh⟩
    refine ⟨copied, .inl fresh, ?_, ?_⟩
    all_goals rw [fresh.connectorType]
    · rw [variable_.connectorType]
    · rintro _ ⟨⟩
  · refine (qualifySymbol_socket dotted around pointed s d light socket).imp ?_
    rintro new next ⟨copied, e, later, fresh, same, behind⟩
    refine ⟨copied, .inr ⟨e, fresh, known.trans_le later, same ▸ origin⟩, ?_, ?_⟩
    all_goals rw [fresh.connectorType]
    · rw [socket.connectorType]
      rfl
    · rintro _ ⟨⟩
      exact behind

theorem Replacing.step {done rest : List (String × SymbolId)} {key : String} {t fresh : SymbolId}
    (replacing : Replacing ok around renamed now base flat done ((key, t) :: rest) new mid)
    (later : flat.New now) (there : t.In base)
    (named : (base.symbolOf t).name = key) (absent : key ∉ new.map Prod.fst)
    (copied : Copied ok around mid t fresh next) (placed : next.Placed ok flat.index fresh)
    (connector : (next.symbolOf fresh).connectorType.isSome = (mid.symbolOf t).connectorType.isSome)
    (behind : ∀ d, (next.symbolOf fresh).connectorType = some d → ∀ m ∈ (next.classOf d).symbols.values,
      fresh.index < m.index) :
    Replacing ok around renamed now base flat (done ++ [(key, t)]) rest (new ++ [(key, fresh)])
      (next.modifyClass flat fun f => { f with symbols := f.symbols.insert key fresh }) := by
  have unmoved : mid.Unmoved ok renamed next := copied.steady.unmoved
  have known : flat.In next := replacing.known.trans_le unmoved.moreClasses
  have stored := (classOf_modifyClass_self next flat · known)
  have skeleton := replacing.skeleton t there
  have last : CopyOf ok around base flat
      (next.modifyClass flat fun f => { f with symbols := f.symbols.insert key fresh }) (key, t)
      (key, fresh) := by
    refine ⟨rfl, ?_, placed.modifyClass flat _, ?_, ?_⟩
    · rw [copied.fresh]
      exact replacing.moreSymbols
    · exact copied.name.trans ((congrArg Skeleton.name skeleton).trans named)
    · show ((next.symbolOf fresh).dimensions, (next.symbolOf fresh).connectorType.isSome) =
        (around.rows (base.symbolOf t).dimensions, (base.symbolOf t).connectorType.isSome)
      rw [copied.dimensions, connector, show (mid.symbolOf t).dimensions = _ from
        congrArg Skeleton.dimensions skeleton, show (mid.symbolOf t).connectorType = _ from
        congrArg Skeleton.connectorType skeleton]
      rfl
  have before : ∀ u ∈ new.map Prod.snd, u.In mid ∧ mid.Placed ok flat.index u := by
    intro u member
    obtain ⟨e', listed, rfl⟩ := List.mem_map.1 member
    obtain ⟨e, copy⟩ := exists_copyOf replacing.copies listed
    exact ⟨copy.placed.known, copy.placed⟩
  refine ⟨copied.light.modifyClass flat _ (copied.light.classes flat),
    (replacing.unmoved.trans unmoved).modifyClass flat later _, ?_,
    replacing.moreSymbols.trans copied.steady.moreSymbols, ?_,
    fun u old => ((replacing.placed u old).unmoved unmoved).modifyClass flat _,
    fun u old => ((replacing.variable_ u old).unmoved unmoved).modifyClass flat _, fun u old => ?_,
    List.rel_append (replacing.copies.imp fun e e' copy => copy.steady copied.steady _) (.cons last .nil), ?_, ?_⟩
  · simpa using known
  · have inserted : OrderedMap.insertEntry key fresh (new ++ (key, t) :: rest) = new ++ [(key, fresh)] ++ rest := by
      rw [insertEntry_append _ _ _ _ absent]
      simp [OrderedMap.insertEntry]
    rw [stored, unmoved.classOf flat replacing.known, replacing.shape, ← inserted]
    rfl
  · exact (copied.steady.symbolOf u (old.trans_le replacing.moreSymbols) not_false).trans (replacing.skeleton u old)
  · rw [map_append, List.nodup_append]
    refine ⟨replacing.distinct, List.nodup_singleton _, ?_⟩
    rintro u member v only rfl
    have index := (before u member).1
    rw [List.map_singleton, List.mem_singleton] at only
    rw [only, copied.fresh] at index
    exact lt_irrefl _ index
  · have index : fresh.index = mid.symbols.size := by
      rw [copied.fresh]
      rfl
    rw [map_append, List.map_singleton]
    intro u member d has m listed present
    change (next.symbolOf u).connectorType = some d at has
    -- the variables of a connector lie behind it, and before what is copied later
    obtain old | only := List.mem_append.1 member
    · obtain ⟨there, placed'⟩ := before u old
      obtain variable_ | ⟨d', socket, above, -⟩ := placed'
      · rw [(variable_.unmoved unmoved).connectorType] at has
        cases has
      · rw [(socket.unmoved unmoved).connectorType] at has
        cases has
        have other : flat ≠ d := by
          rintro rfl
          exact lt_irrefl _ above
        rw [classOf_modifyClass_ne next flat d _ other, unmoved.classOf d socket.bundle.known] at listed
        obtain within | only := List.mem_append.1 present
        · exact replacing.sockets u old d socket.connectorType m listed within
        · have small := (socket.bundle.members m listed).known
          rw [List.mem_singleton.1 only, index] at small
          exact lt_irrefl _ small
    · rw [List.mem_singleton.1 only] at has
      have other : flat ≠ d := by
        rintro rfl
        obtain variable_ | ⟨d', socket, above, -⟩ := placed
        · rw [variable_.connectorType] at has
          cases has
        · rw [socket.connectorType] at has
          cases has
          exact lt_irrefl _ above
      rw [classOf_modifyClass_ne next flat d _ other] at listed
      have large := behind d has m listed
      obtain within | same := List.mem_append.1 present
      · have small := (before m within).1
        omega
      · rw [List.mem_singleton.1 same] at large
        exact lt_irrefl _ large

theorem qualifySymbols_replaces (dotted : Dotted ok) (around : Surroundings) (pointed : around.Pointed)
    (growing : Growing ok renamed now flat type f base)
    (named : ∀ e ∈ (base.classOf flat).symbols.entries, (base.symbolOf e.2).name = e.1) :
    (qualifySymbols flat around).Ensures base (fun _ next => ∃ new,
      Replacing ok around renamed now base flat (base.classOf flat).symbols.entries [] new next)
      anyhow := by
  unfold qualifySymbols
  simp only [ensures_bind, ensures_classOf]
  refine ensures_forIn _ _ _ (fun done _ next => ∃ rest new, (base.classOf flat).symbols.entries = done ++ rest ∧
      Replacing ok around renamed now base flat done rest new next) ?_ ?_ ?_
  · exact ⟨_, [], rfl, growing.light, growing.unmoved, growing.known, le_rfl, rfl,
      fun _ => id, fun _ => id, fun _ _ => rfl, .nil, .nil, by rintro _ ⟨⟩⟩
  · rintro done ⟨key, t⟩ rest ⟨⟩ mid all ⟨rest', new, all', replacing⟩
    obtain rfl : rest' = (key, t) :: rest := List.append_cancel_left (all'.symm.trans all)
    have entry : (key, t) ∈ (base.classOf flat).symbols.entries := by simp [all]
    have placed := growing.placed t (mem_map_of_mem entry)
    have absent : key ∉ new.map Prod.fst := by
      rw [keys_of_copies replacing.copies]
      exact not_mem_done growing.unique all
    rw [ensures_bind]
    refine (qualifySymbol_placed dotted around pointed replacing.light replacing.known
      (replacing.placed t placed)).imp ?_
    rintro fresh next ⟨copied, placed', connector, behind⟩
    simp only [ensures_bind, ensures_updateClass, ensures_pure]
    exact ⟨rest, new ++ [(key, fresh)], by simp [all], replacing.step growing.new placed.known
      (named (key, t) entry) absent copied placed' connector behind⟩
  · rintro ⟨⟩ next ⟨rest, new, all, replacing⟩
    obtain rfl : rest = [] := List.self_eq_append_right.1 all
    exact .pure ⟨new, replacing⟩

theorem Replacing.growing
    (replacing : Replacing ok around renamed now base flat (base.classOf flat).symbols.entries [] new next)
    (growing : Growing ok renamed now flat type f base) : Growing ok renamed now flat type (f.qualify around) next := by
  have shape := replacing.shape
  rw [append_nil] at shape
  refine ⟨replacing.light, replacing.unmoved, growing.new, replacing.known, ?_, ?_, ?_, ?_, ?_⟩
  · rw [shape]
    exact { growing.hollow with }
  · rw [shape]
    exact growing.type
  · rw [shape]
    show (new.map Prod.fst).Nodup
    rw [keys_of_copies replacing.copies]
    exact growing.unique
  · rw [shape]
    intro t member
    obtain ⟨e', listed, rfl⟩ := List.mem_map.1 member
    obtain ⟨e, copy⟩ := exists_copyOf replacing.copies listed
    exact copy.placed
  · have symbols : OrderedMap.mapValues next.facet ⟨new⟩ =
        ((base.classOf flat).symbols.mapValues base.facet).mapValues fun v => (around.rows v.1, v.2) := by
      refine congrArg OrderedMap.mk ((facets_of_copies replacing.copies).trans ?_)
      simp [OrderedMap.mapValues]
    rw [← growing.view]
    unfold Library.view Flat.qualify
    rw [shape, ← symbols]

end Qualify

theorem pointed_inFront (name : String) (present : String → Bool) : Surroundings.Pointed ⟨inFront name, present⟩ := by
  unfold Surroundings.Pointed inFront
  split
  · exact .inl rfl
  · refine .inr ?_
    simp

theorem Laying.start (light : now.Light ok) {d : ClassDef} (type : d.type = (lib.classOf id).type)
    (hollow : d.Hollow now.nextClass) (empty : (now.pushClass d).view now.nextClass = {}) :
    Laying ok lib id now now.nextClass {} [] (now.pushClass d) := by
  have stored := classOf_pushClass_self now d
  have none : d.symbols.entries = [] := by
    have symbols := congrArg Flat.symbols empty
    unfold Library.view at symbols
    rw [stored] at symbols
    exact List.map_eq_nil_iff.1 (congrArg OrderedMap.entries symbols)
  refine ⟨⟨light.pushClass d (by rw [ClassDef.light, hollow.classes]; rfl), (Unmoved.refl now).pushClass d,
    le_rfl, ?_, ?_, ?_, ?_, ?_, empty⟩, ?_, ?_, by rintro _ ⟨⟩⟩
  · exact nextClass_lt ..
  all_goals rw [stored]
  · exact hollow
  · exact type
  · rw [OrderedMap.keys, none]
    exact .nil
  · rw [OrderedMap.values, none]
    rintro _ ⟨⟩
  · rw [none]
    rintro _ ⟨⟩
  · rw [OrderedMap.values, none]
    rintro _ ⟨⟩

theorem Flattened.finish (fuel : Nat) (name : String) {around : Surroundings} {base : Library}
    {new : List (String × SymbolId)}
    (laying : Laying ok lib id now flat f (lib.classOf id).symbols.entries base)
    (replacing : Replacing ok around (lib.Contains id) now base flat (base.classOf flat).symbols.entries [] new next)
    (same : lib.flat fuel id name = (f.qualify around).addQualified around (lib.classOf id))
    (bottoms : lib.Bottoms fuel id) :
    Flattened ok lib fuel id name now flat (next.modifyClass flat ((lib.classOf id).addQualified around)) := by
  have growing := replacing.growing laying.growing
  have stored := (classOf_modifyClass_self next flat · replacing.known)
  have symbols : ((lib.classOf id).addQualified around (next.classOf flat)).symbols = ⟨new⟩ := by
    rw [replacing.shape, append_nil]
    rfl
  refine ⟨same ▸ growing.addQualified around (lib.classOf id), ?_, ?_, ?_, fun s member leaf => ?_, bottoms, ?_⟩
  · rw [stored, symbols]
    intro e' member
    obtain ⟨e, copy⟩ := exists_copyOf replacing.copies member
    exact copy.name
  · rw [stored, symbols]
    intro t member
    obtain ⟨e', listed, rfl⟩ := List.mem_map.1 member
    obtain ⟨e, copy⟩ := exists_copyOf replacing.copies listed
    exact laying.growing.unmoved.moreSymbols.trans copy.new
  · rw [stored, symbols]
    exact replacing.distinct
  · obtain ⟨e, listed, rfl⟩ := List.mem_map.1 member
    exact (replacing.variable_ e.2 (laying.settled e listed leaf)).modifyClass flat _
  · rw [stored, symbols]
    intro t member d has m listed
    refine replacing.sockets t member d has m ?_
    by_cases same : flat = d
    · subst same
      rw [stored] at listed
      exact listed
    · rwa [classOf_modifyClass_ne next flat d _ same] at listed

theorem flattens (dotted : Dotted ok) (fuel : Nat) : Flattens ok fuel := by
  induction fuel using Nat.strongRecOn with
  | ind fuel ih =>
    intro inside lib id name now laid within start light
    cases fuel with
    | zero =>
      unfold flattenInstance
      exact .throw
    | succ fuel =>
      unfold flattenInstance
      simp only [ensures_bind, ensures_classOf, ensures_addClass]
      rw [start.classOf id (laid.known id within)]
      refine ensures_forIn _ _ _ (fun done _ mid => Laying ok lib id now now.nextClass
        (done.foldl (fun f e => lib.addFlat (lib.flat fuel) f (inFront name ++ e.1) e.2) {}) done mid ∧
        ∀ e ∈ done, ∀ d, (lib.symbolOf e.2).type = .instance_ d → (lib.classOf d).type ≠ "__builtin" →
          lib.Bottoms fuel d) ?_ ?_ ?_
      · refine ⟨Laying.start light rfl ⟨rfl, rfl, rfl, rfl, rfl⟩ ?_, by rintro _ ⟨⟩⟩
        rw [Library.view, classOf_pushClass_self]
        rfl
      · rintro done ⟨key, s⟩ rest ⟨⟩ mid all ⟨laying, bottoms⟩
        rw [ensures_bind]
        refine (laying.addComponent ⟨laid, within, start, rest, all⟩
          (fun less small => ih less (Nat.lt_succ_of_le small)) (inFront name)).imp fun _ next result => ?_
        rw [ensures_pure, List.foldl_append]
        refine ⟨result.1, fun e member => ?_⟩
        obtain old | new := List.mem_append.1 member
        · exact bottoms e old
        · rw [List.mem_singleton.1 new]
          exact result.2
      · rintro ⟨⟩ mid ⟨laying, bottoms⟩
        refine (calm_iff.1 (calm_settle now.nextClass id) mid laying.growing.light).imp ?_
        rintro ⟨⟩ base ⟨steady, light⟩
        replace laying := laying.later (Steady.unmoved steady) light (fun _ no => no.elim) fun _ _ => not_false
        generalize folded : List.foldl (fun f e => lib.addFlat (lib.flat fuel) f (inFront name ++ e.1) e.2) {}
          (lib.classOf id).symbols.entries = f at laying
        have keys : (base.classOf now.nextClass).symbols.keys = f.symbols.keys := by
          rw [← laying.growing.view]
          exact (keys_mapValues _ _).symm
        simp only [keys]
        refine (qualifySymbols_replaces dotted _ (pointed_inFront name _) laying.growing
          laying.named).imp ?_
        rintro ⟨⟩ next ⟨new, replacing⟩
        have stored : next.classOf id = lib.classOf id :=
          (start.trans (replacing.unmoved.weaken fun _ _ _ => trivial)).classOf id (laid.known id within)
        refine (flattenEquations_of_basic replacing.light id _ _ (stored ▸ laid.basic id within) .empty).imp ?_
        rintro _ _ ⟨rfl, rfl⟩
        rw [stored]
        have result := Flattened.finish (fuel + 1) name laying replacing (by rw [Library.flat, folded])
          fun s member => by
            obtain ⟨e, listed, rfl⟩ := List.mem_map.1 member
            exact bottoms e listed
        have still : ∀ last : Library, last.modifyClass now.nextClass
            (fun f => { f with functions := f.functions.union .empty }) = last :=
          fun last => last.modifyClass_eq_self _ _ rfl
        simp only [addFunctions, entries_empty, List.forIn_nil, ensures_bind, ensures_pure, ensures_updateClass, still]
        exact result

end Build

end Modelica
