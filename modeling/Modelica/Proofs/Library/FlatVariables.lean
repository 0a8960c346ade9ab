import Modelica.Proofs.Library.Expanded

set_option autoImplicit false

namespace Modelica

namespace Library

variable {lib : Library} {c : ClassId}

def Numbers (rows : List (List Expr)) : Prop :=
  ∀ e ∈ rows.flatten, e = .absent ∨ ∃ v, e = .literal v

theorem rows_of_numbers (s : Surroundings) {rows : List (List Expr)} (numbers : Numbers rows) : s.rows rows = rows := by
  unfold Surroundings.rows
  refine (List.map_congr_left fun row member => ?_).trans (List.map_id rows)
  refine (List.map_congr_left fun e listed => ?_).trans (List.map_id row)
  obtain rfl | ⟨v, rfl⟩ := numbers e (List.mem_flatten.2 ⟨row, member, listed⟩)
  · rfl
  · rfl

theorem Route.resolved_of_numbers {p : List (String × SymbolId)} {flag : Bool}
    (route : lib.Route c p flag) (name : String) (numbers : ∀ e ∈ p, Numbers (lib.symbolOf e.2).dimensions) :
    lib.resolved c name p = (p.map fun e => (lib.symbolOf e.2).dimensions).flatten := by
  have all : ∀ q : List (String × SymbolId), (∀ e ∈ q, Numbers (lib.symbolOf e.2).dimensions) →
      Numbers (q.map fun e => (lib.symbolOf e.2).dimensions).flatten := by
    intro q numbers x member
    obtain ⟨row, listed, inside⟩ := List.mem_flatten.1 member
    obtain ⟨rows, there, has⟩ := List.mem_flatten.1 listed
    obtain ⟨e, along, rfl⟩ := List.mem_map.1 there
    exact numbers e along x (List.mem_flatten.2 ⟨row, has, inside⟩)
  induction route generalizing name with
  | leaf _ _ | connector _ _ _ =>
    rw [resolved_cons, beyond_nil, List.append_nil, rows_of_numbers _ (numbers _ (List.mem_singleton_self _))]
    simp
  | @inner c d e p flag _ type _ _ ih =>
    have rest := ih (inFront name ++ e.1) fun e member => numbers e (List.mem_cons_of_mem _ member)
    have whole := all (e :: p) numbers
    rw [List.map_cons, List.flatten_cons] at whole ⊢
    rw [resolved_cons, beyond, type]
    dsimp only
    rw [rest, rows_of_numbers _ whole]

theorem Route.eq_of_names {ok : String → Bool} {inside : ClassId → Prop} (laid : lib.Laid ok inside)
    {p q : List (String × SymbolId)} {flag flag' : Bool} (route : lib.Route c p flag) (within : inside c)
    (route' : lib.Route c q flag') (same : p.map Prod.fst = q.map Prod.fst) : p = q := by
  have head : ∀ c, inside c → ∀ e ∈ (lib.classOf c).symbols.entries,
      ∀ e' ∈ (lib.classOf c).symbols.entries, e.1 = e'.1 → e = e' := fun c within e member e' member' =>
    List.inj_on_of_nodup_map (laid.unique c within) member member'
  induction route generalizing q flag' with
  | leaf member _ | connector member _ _ =>
    obtain ⟨e', q, rfl⟩ := List.exists_cons_of_ne_nil route'.ne_nil
    obtain ⟨first, rest⟩ := List.cons.inj same
    rw [head _ within _ member e' route'.head first, List.map_eq_nil_iff.1 rest.symm]
  | @inner c d e p flag member type kind route ih =>
    obtain ⟨e', q, rfl⟩ := List.exists_cons_of_ne_nil route'.ne_nil
    obtain ⟨first, rest⟩ := List.cons.inj same
    obtain rfl := head _ within _ member e' route'.head first
    have more : q ≠ [] := by
      rintro rfl
      exact route.ne_nil (List.map_eq_nil_iff.1 rest)
    cases route' with
    | leaf _ _ | connector _ _ _ => exact absurd rfl more
    | inner _ type' _ route' =>
      cases type.symm.trans type'
      rw [ih (laid.deeper within (List.mem_map_of_mem member) type kind) route' rest]

end Library

namespace Build

open Library

variable {ok : String → Bool} {inside : ClassId → Prop} {lib : Library} {tree : ClassId}

-- Each variable of an instance is there once, under its dotted path. Its dimensions are those along the path,
-- outermost first; references in them are resolved in the instance they stand in and once more in every
-- instance around it.
theorem expandConnectors_flattenInstance_paths (dotted : Dotted ok) (light : lib.Light ok)
    (laid : lib.Laid ok inside) (within : inside tree) (identifiers : lib.Identifiers inside) {fuel : Nat}
    {flat : ClassId} {mid next : Library} (flattened : flattenInstance fuel tree "" lib = .ok flat mid)
    (expanded : expandConnectors fuel flat mid = .ok () next) :
    (next.classOf flat).symbols.keys.Nodup ∧
    (∀ k, k ∈ (next.classOf flat).symbols.keys ↔
      ∃ p, lib.Route tree p false ∧ k = ".".intercalate (p.map Prod.fst)) ∧
    (∀ p q, lib.Route tree p false → lib.Route tree q false →
      ".".intercalate (p.map Prod.fst) = ".".intercalate (q.map Prod.fst) → p = q) ∧
    ∀ p, lib.Route tree p false → ∃ s,
      (next.classOf flat).symbols.find? (".".intercalate (p.map Prod.fst)) = some s ∧
      (next.symbolOf s).name = ".".intercalate (p.map Prod.fst) ∧
      (next.symbolOf s).dimensions = lib.resolved tree "" p ∧
      ((∀ e ∈ p, Numbers (lib.symbolOf e.2).dimensions) →
        (next.symbolOf s).dimensions = (p.map fun e => (lib.symbolOf e.2).dimensions).flatten) := by
  have result := (ensures_of_eq flattened).1 (flattens dotted fuel inside lib tree "" lib laid within
    (.refl lib) light)
  have wired : Wired ok mid flat := ⟨result.growing.light, result.growing.known, result.growing.placed,
    result.sockets⟩
  obtain ⟨symbols, skeleton⟩ := (ensures_of_eq expanded).1 (expandConnectors_keeps wired dotted fuel)
  obtain ⟨lists, -⟩ := flat_lists laid identifiers fuel "" within result.bottoms
  have called : ∀ p : List String, under "" p = ".".intercalate p := fun p => String.empty_append
  have facets : ∀ k v, (k, v) ∈ (lib.flat fuel tree "").symbols.entries ↔
      ∃ t, (k, t) ∈ (mid.classOf flat).symbols.entries ∧ v = mid.facet t := by
    intro k v
    rw [← result.growing.view]
    show (k, v) ∈ (mid.classOf flat).symbols.entries.map (fun e => (e.1, mid.facet e.2)) ↔ _
    rw [List.mem_map]
    constructor
    · rintro ⟨⟨j, t⟩, member, same⟩
      cases same
      exact ⟨t, member, rfl⟩
    · rintro ⟨t, member, rfl⟩
      exact ⟨(k, t), member, rfl⟩
  -- what is left is what has no flat class of its own
  have left : ∀ k t, (k, t) ∈ (next.classOf flat).symbols.entries ↔
      (k, t) ∈ (mid.classOf flat).symbols.entries ∧ (mid.facet t).2 = false := by
    intro k t
    rw [symbols]
    show (k, t) ∈ List.filter _ _ ↔ _
    rw [List.mem_filter]
    refine and_congr Iff.rfl ?_
    rw [Library.facet]
    cases (mid.symbolOf t).connectorType <;> simp
  have unique : (next.classOf flat).symbols.keys.Nodup := by
    rw [symbols]
    exact List.Sublist.nodup (List.Sublist.map _ List.filter_sublist) result.growing.unique
  refine ⟨unique, fun k => ⟨fun member => ?_, ?_⟩, fun p q route route' same => ?_, fun p route => ?_⟩
  · obtain ⟨⟨k, t⟩, listed, rfl⟩ := List.mem_map.1 member
    obtain ⟨there, variable_⟩ := (left k t).1 listed
    obtain ⟨p, route, key, -⟩ := (lists k (mid.facet t)).1 ((facets k _).2 ⟨t, there, rfl⟩)
    exact ⟨p, variable_ ▸ route, key.trans (called _)⟩
  · rintro ⟨p, route, rfl⟩
    obtain ⟨t, there, same⟩ := (facets _ (lib.resolved tree "" p, false)).1
      ((lists _ (lib.resolved tree "" p, false)).2 ⟨p, route, (called _).symm, rfl⟩)
    exact List.mem_map_of_mem ((left _ t).2 ⟨there, (congrArg Prod.snd same).symm⟩)
  · rw [← called, ← called] at same
    have plain := fun p (route : lib.Route tree p false) k (in_ : k ∈ p.map Prod.fst) =>
      (route.plain laid identifiers within k in_).2
    have names := under_injective "" (by simpa using route.ne_nil) (by simpa using route'.ne_nil)
      (plain p route) (plain q route') same
    exact route.eq_of_names laid within route' names
  · obtain ⟨t, there, same⟩ := (facets _ (lib.resolved tree "" p, false)).1
      ((lists _ (lib.resolved tree "" p, false)).2 ⟨p, route, (called _).symm, rfl⟩)
    have kept := skeleton t (List.mem_map_of_mem there)
    have dims : (next.symbolOf t).dimensions = lib.resolved tree "" p :=
      (congrArg Skeleton.dimensions kept).trans (congrArg Prod.fst same).symm
    refine ⟨t, ?_, ?_, dims, fun numbers => dims.trans (route.resolved_of_numbers "" numbers)⟩
    · exact OrderedMap.find?_of_mem _ unique _ t ((left _ t).2 ⟨there, (congrArg Prod.snd same).symm⟩)
    · exact (congrArg Skeleton.name kept).trans (result.named _ there)

-- A model with an instance in an instance of the same name, beside another one.
def namesakes : Library where
  classes := #[
    { name := some "M", type := "model", symbols := ⟨[("b", ⟨0⟩), ("p", ⟨8⟩)]⟩, origin := ⟨0⟩ },
    { name := some "B", type := "model", symbols := ⟨[("b", ⟨1⟩), ("a", ⟨5⟩)]⟩, origin := ⟨1⟩ },
    { name := some "C", type := "model", symbols := ⟨[("a", ⟨2⟩)]⟩, origin := ⟨2⟩ },
    { name := some "A", type := "model", symbols := ⟨[("n", ⟨3⟩), ("x", ⟨4⟩)]⟩, origin := ⟨3⟩ },
    { name := some "A", type := "model", symbols := ⟨[("n", ⟨6⟩), ("x", ⟨7⟩)]⟩, origin := ⟨4⟩ },
    { name := some "Pin", type := "connector", symbols := ⟨[("v", ⟨9⟩)]⟩, origin := ⟨5⟩ }]
  symbols := #[
    { name := "b", type := .instance_ ⟨1⟩ },
    { name := "b", type := .instance_ ⟨2⟩ },
    { name := "a", type := .instance_ ⟨3⟩ },
    { name := "n", type := .named (.simple "Integer") },
    { name := "x", type := .named (.simple "Real"), dimensions := [[.ref (.simple "n")]] },
    { name := "a", type := .instance_ ⟨4⟩ },
    { name := "n", type := .named (.simple "Integer") },
    { name := "x", type := .named (.simple "Real"), dimensions := [[.ref (.simple "n")]] },
    { name := "p", type := .instance_ ⟨5⟩ },
    { name := "v", type := .named (.simple "Real") }]

def endsIn (dimensions : List (List Expr)) (name : String) : Bool :=
  match dimensions.getLast? with
  | some [.ref r] => r.name == name
  | _ => false

theorem namesakes_runs : (flattenInstance 9 ⟨0⟩ "").passes namesakes (fun flat mid =>
    (expandConnectors 9 flat).passes mid fun _ next =>
      (next.classOf flat).symbols.keys.contains "b.a.n" &&
      ((next.classOf flat).symbols.find? "b.a.x").any fun s =>
        endsIn (next.symbolOf s).dimensions "b.b.a.n") = true := by
  decide +kernel

theorem inside_iff (c : ClassId) : c.index < 6 ↔ c = ⟨0⟩ ∨ c = ⟨1⟩ ∨ c = ⟨2⟩ ∨ c = ⟨3⟩ ∨ c = ⟨4⟩ ∨ c = ⟨5⟩ := by
  obtain ⟨i⟩ := c
  simp only [ClassId.mk.injEq]
  omega

theorem namesakes_light : namesakes.Light fun _ => true := .of_all rfl rfl rfl

theorem namesakes_identifiers : namesakes.Identifiers (·.index < 6) := by
  have all : ∀ i : Fin 6, ∀ k ∈ (namesakes.classOf ⟨i⟩).symbols.keys, k ≠ "" ∧ '.' ∉ k.toList := by
    decide
  exact fun c known => all ⟨c.index, known⟩

theorem namesakes_component (c : ClassId) (known : c.index < 6) (s : SymbolId)
    (member : s ∈ (namesakes.classOf c).symbols.values) : namesakes.Component (fun _ => true) (·.index < 6) s := by
  have all : ∀ i : Fin 6, ∀ s ∈ (namesakes.classOf ⟨i⟩).symbols.values, s.index < 10 ∧
      (∀ e ∈ (namesakes.symbolOf s).dimensions.flatten, e.bare = true) ∧
      (s = ⟨8⟩ ∨ namesakes.ordinary 6 s = true) := by
    decide
  obtain ⟨small, bare, rfl | ordinary⟩ := all ⟨c.index, known⟩ s member
  · refine ⟨small, bare, .plug (c := ⟨5⟩) (by decide) ⟨rfl, rfl, rfl, rfl, ⟨rfl, rfl, rfl, rfl, rfl⟩, ?_⟩⟩
    intro s member
    cases List.mem_singleton.1 member
    exact .inl ⟨_, rfl⟩
  · exact .of_ordinary small bare ordinary

def bounds (c : ClassId) : Nat × Nat :=
  [(0, 10), (1, 8), (2, 5), (3, 5), (6, 8), (9, 10)].getD c.index (0, 0)

theorem namesakes_laid : namesakes.Laid (fun _ => true) (·.index < 6) := by
  refine .of_ranges bounds (by decide) (fun c known => ?_) namesakes_component (by decide)
  obtain rfl | rfl | rfl | rfl | rfl | rfl := (inside_iff c).1 known <;>
    exact ⟨by rintro _ ⟨⟩, by rintro _ ⟨⟩, by rintro _ ⟨⟩, by rintro _ ⟨⟩, by rintro _ ⟨⟩⟩

theorem namesakes_route : namesakes.Route ⟨0⟩ [("b", ⟨0⟩), ("a", ⟨5⟩), ("x", ⟨7⟩)] false := by
  refine .inner (d := ⟨1⟩) (by decide) rfl (by decide) ?_
  refine .inner (d := ⟨4⟩) (by decide) rfl (by decide) ?_
  exact .leaf (by decide) (.inl ⟨_, rfl⟩)

theorem namesakes_paths : ∃ flat mid next s, flattenInstance 9 ⟨0⟩ "" namesakes = .ok flat mid ∧
    expandConnectors 9 flat mid = .ok () next ∧ (next.classOf flat).symbols.find? "b.a.x" = some s ∧
    (next.symbolOf s).name = "b.a.x" ∧
    (next.symbolOf s).dimensions = namesakes.resolved ⟨0⟩ "" [("b", ⟨0⟩), ("a", ⟨5⟩), ("x", ⟨7⟩)] := by
  obtain ⟨flat, mid, flattened, more⟩ := exists_of_passes _ _ _ namesakes_runs
  obtain ⟨⟨⟩, next, expanded, -⟩ := exists_of_passes _ _ _ more
  have dotted : Dotted fun _ => true := fun _ _ => rfl
  obtain ⟨-, -, -, each⟩ := expandConnectors_flattenInstance_paths dotted namesakes_light namesakes_laid
    (by decide : (⟨0⟩ : ClassId).index < 6) namesakes_identifiers flattened expanded
  obtain ⟨s, found, called, dims, -⟩ := each _ namesakes_route
  exact ⟨flat, mid, next, s, flattened, expanded, found, called, dims⟩

-- The variable `x` of `b.a` is as long as the `n` of another instance says.
theorem namesakes_other_length : ∃ flat mid next s, flattenInstance 9 ⟨0⟩ "" namesakes = .ok flat mid ∧
    expandConnectors 9 flat mid = .ok () next ∧ "b.a.n" ∈ (next.classOf flat).symbols.keys ∧
    (next.classOf flat).symbols.find? "b.a.x" = some s ∧
    endsIn (next.symbolOf s).dimensions "b.b.a.n" = true := by
  obtain ⟨flat, mid, flattened, more⟩ := exists_of_passes _ _ _ namesakes_runs
  obtain ⟨⟨⟩, next, expanded, both⟩ := exists_of_passes _ _ _ more
  obtain ⟨own, other⟩ := Bool.and_eq_true_iff.1 both
  obtain ⟨s, found, last⟩ := (Option.any_eq_true _ _).1 other
  exact ⟨flat, mid, next, s, flattened, expanded, List.contains_iff_mem.1 own, found, last⟩

end Build

end Modelica
