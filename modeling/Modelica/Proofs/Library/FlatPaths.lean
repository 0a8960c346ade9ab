import Modelica.Proofs.Library.Flattened
import Modelica.Proofs.Library.Resolved

set_option autoImplicit false

namespace Modelica

open List (append_assoc append_nil cons_ne_nil map_append mem_map_of_mem mem_singleton)

def under (name : String) (p : List String) : String := inFront name ++ ".".intercalate p

theorem inFront_append (name key : String) (nonempty : key ≠ "") :
    inFront (inFront name ++ key) = inFront name ++ key ++ "." := by
  have other : inFront name ++ key ≠ "" := by
    intro none
    exact nonempty (String.append_eq_empty_iff.1 none).2
  rw [inFront, if_neg other]

theorem under_single (name key : String) : under name [key] = inFront name ++ key := by
  rw [under, String.intercalate_singleton]

theorem under_cons (name key : String) (nonempty : key ≠ "") {p : List String} (more : p ≠ []) :
    under name (key :: p) = under (inFront name ++ key) p := by
  rw [under, under, inFront_append name key nonempty, String.intercalate_cons_of_ne_nil more]
  simp only [String.append_assoc]

theorem under_injective (name : String) {p q : List String} (first : p ≠ []) (second : q ≠ [])
    (plain : ∀ k ∈ p, '.' ∉ k.toList) (plain' : ∀ k ∈ q, '.' ∉ k.toList)
    (same : under name p = under name q) : p = q := by
  have chars := congrArg String.toList same
  rw [under, under, String.toList_append, String.toList_append] at chars
  have joined := List.append_cancel_left chars
  rw [String.toList_intercalate, String.toList_intercalate] at joined
  have split : ∀ r : List String, r ≠ [] → (∀ k ∈ r, '.' ∉ k.toList) →
      (['.'].intercalate (r.map String.toList)).splitOn '.' = r.map String.toList := by
    intro r more plain
    refine List.splitOn_intercalate '.' (fun l member => ?_) (by simpa using more)
    obtain ⟨k, listed, rfl⟩ := List.mem_map.1 member
    exact plain k listed
  have lists := (split p first plain).symm.trans ((congrArg (List.splitOn '.') joined).trans (split q second plain'))
  exact List.map_injective_iff.2 (fun a b => String.toList_inj.1) lists

namespace Library

inductive Route (lib : Library) : ClassId → List (String × SymbolId) → Bool → Prop
  | leaf {c : ClassId} {e : String × SymbolId} : e ∈ (lib.classOf c).symbols.entries → lib.Leaf e.2 →
      Route lib c [e] false
  | connector {c d : ClassId} {e : String × SymbolId} : e ∈ (lib.classOf c).symbols.entries →
      (lib.symbolOf e.2).type = .instance_ d → (lib.classOf d).type = "connector" → Route lib c [e] true
  | inner {c d : ClassId} {e : String × SymbolId} {p : List (String × SymbolId)} {flag : Bool} :
      e ∈ (lib.classOf c).symbols.entries → (lib.symbolOf e.2).type = .instance_ d →
      (lib.classOf d).type ≠ "__builtin" → Route lib d p flag → Route lib c (e :: p) flag

def Names (lib : Library) (c : ClassId) (name n : String) : Prop :=
  ∃ p flag, lib.Route c p flag ∧ n = under name (p.map Prod.fst)

open Classical in
noncomputable def around (lib : Library) (c : ClassId) (name : String) : Surroundings :=
  ⟨inFront name, fun n => decide (lib.Names c name n)⟩

-- The dimensions along a path, outermost first. The references in them have been resolved in every instance
-- around them.
noncomputable def resolved (lib : Library) :
    ClassId → String → List (String × SymbolId) → List (List Expr)
  | _, _, [] => []
  | c, name, e :: p => (lib.around c name).rows ((lib.symbolOf e.2).dimensions ++
      match (lib.symbolOf e.2).type with
      | .instance_ d => lib.resolved d (inFront name ++ e.1) p
      | _ => [])

def Identifiers (lib : Library) (inside : ClassId → Prop) : Prop :=
  ∀ c, inside c → ∀ k ∈ (lib.classOf c).symbols.keys, k ≠ "" ∧ '.' ∉ k.toList

def contributed (lib : Library) (inner : ClassId → String → Flat) (name : String) (s : SymbolId) :
    List (String × List (List Expr) × Bool) :=
  let dims := (lib.symbolOf s).dimensions
  match (lib.symbolOf s).type with
  | .instance_ c =>
    if (lib.classOf c).type = "__builtin" then [(name, dims, false)]
    else if (lib.classOf c).type = "connector" then
      ((inner c name).under dims).symbols.entries ++ [(name, dims, true)]
    else ((inner c name).under dims).symbols.entries
  | _ => [(name, dims, false)]

variable {ok : String → Bool} {inside : ClassId → Prop} {lib : Library} {c d : ClassId} {s : SymbolId}

section Contributed

variable (inner : ClassId → String → Flat)

theorem insert_entries (f : Flat) (name : String) (v : List (List Expr) × Bool)
    (unique : (f.symbols.keys ++ [name]).Nodup) :
    (f.insert name v).symbols.entries = f.symbols.entries ++ [(name, v)] := by
  refine OrderedMap.entries_insert_of_not_mem _ _ _ fun member => ?_
  exact (List.nodup_append.1 unique).2.2 name member name (List.mem_singleton_self _) rfl

theorem merge_entries (f g : Flat) (unique : (f.symbols.keys ++ g.symbols.keys).Nodup) :
    (f.merge g).symbols.entries = f.symbols.entries ++ g.symbols.entries := by
  rw [List.nodup_append] at unique
  exact OrderedMap.entries_union_of_disjoint _ _ unique.2.1 fun k member before => unique.2.2 k before k member rfl

theorem addFlat_entries (f : Flat) (name : String)
    (unique : (f.symbols.keys ++ (lib.contributed inner name s).map Prod.fst).Nodup) :
    (lib.addFlat inner f name s).symbols.entries = f.symbols.entries ++ lib.contributed inner name s := by
  unfold addFlat
  unfold contributed at unique ⊢
  cases type : (lib.symbolOf s).type with
  | named r | connector n =>
    simp only [type] at unique ⊢
    exact insert_entries f name _ unique
  | instance_ c =>
    simp only [type] at unique ⊢
    split
    · next builtin =>
      simp only [builtin, if_true] at unique
      exact insert_entries f name _ unique
    · next other =>
      simp only [other, if_false] at unique
      split
      · next connector =>
        simp only [connector, if_true, map_append, ← append_assoc] at unique
        have merged := merge_entries f ((inner c name).under (lib.symbolOf s).dimensions) (List.nodup_append.1 unique).1
        rw [insert_entries, merged, append_assoc]
        rw [OrderedMap.keys, merged, map_append]
        exact unique
      · next plain =>
        simp only [plain, if_false] at unique
        exact merge_entries f _ unique

theorem foldl_addFlat_entries (before : String) (es : List (String × SymbolId)) (f : Flat) (unique : (f.symbols.keys ++
      (es.flatMap fun e => lib.contributed inner (before ++ e.1) e.2).map Prod.fst).Nodup) :
    (es.foldl (fun f e => lib.addFlat inner f (before ++ e.1) e.2) f).symbols.entries =
      f.symbols.entries ++ es.flatMap fun e => lib.contributed inner (before ++ e.1) e.2 := by
  induction es generalizing f with
  | nil => simp
  | cons e es ih =>
    rw [List.flatMap_cons, map_append, ← append_assoc] at unique
    have first := addFlat_entries inner f (before ++ e.1) (List.nodup_append.1 unique).1
    rw [List.foldl_cons, ih, first, List.flatMap_cons, append_assoc]
    rw [OrderedMap.keys, first, map_append]
    exact unique

end Contributed

theorem Laid.deeper (laid : lib.Laid ok inside) (within : inside c)
    (own : s ∈ (lib.classOf c).symbols.values) (type : (lib.symbolOf s).type = .instance_ d)
    (kind : (lib.classOf d).type ≠ "__builtin") : inside d := by
  have shape := (laid.components c within s own).shape
  rw [type] at shape
  generalize (lib.symbolOf s).connectorType = kept at shape
  cases shape with
  | value wraps => exact absurd wraps.kind kind
  | inner within _ _ | plug within _ => exact within

-- A variable, or an instance of one of the first `n` classes that is no connector.
def ordinary (lib : Library) (n : Nat) (s : SymbolId) : Bool :=
  match (lib.symbolOf s).type with
  | .named _ => (lib.symbolOf s).connectorType.isNone
  | .instance_ c => c.index < n && (lib.classOf c).type != "__builtin" && (lib.classOf c).type != "connector"
  | .connector _ => false

theorem Component.of_ordinary {n : Nat} (known : s.In lib)
    (bare : ∀ e ∈ (lib.symbolOf s).dimensions.flatten, e.bare = true) (shape : lib.ordinary n s = true) :
    lib.Component (fun _ => true) (·.index < n) s := by
  refine ⟨known, bare, ?_⟩
  unfold ordinary at shape
  split at shape
  · next type => exact type ▸ Option.isNone_iff_eq_none.1 shape ▸ .elementary rfl
  · next type =>
    simp only [Bool.and_eq_true, decide_eq_true_eq, bne_iff_ne] at shape
    exact type ▸ .inner shape.1.1 shape.1.2 shape.2
  · cases shape

-- Instances whose components have numbers in one range, and an inner instance in a range of its own.
theorem Laid.of_ranges {n : Nat} (range : ClassId → Nat × Nat) (known : n ≤ lib.classes.size)
    (basic : ∀ c, c.index < n → (lib.classOf c).Basic ok)
    (components : ∀ c, c.index < n → ∀ s ∈ (lib.classOf c).symbols.values, lib.Component ok (·.index < n) s)
    (ranges : ∀ i : Fin n, (lib.classOf ⟨i⟩).symbols.keys.Nodup ∧
      (∀ e ∈ (lib.classOf ⟨i⟩).symbols.entries, ∀ e' ∈ (lib.classOf ⟨i⟩).symbols.entries, e.1 ≠ e'.1 → e.2 ≠ e'.2) ∧
      ∀ s ∈ (lib.classOf ⟨i⟩).symbols.values, ((range ⟨i⟩).1 ≤ s.index ∧ s.index < (range ⟨i⟩).2) ∧
        ∀ d ∈ (lib.symbolOf s).type.instance?, d.index < n ∧
          ((range ⟨i⟩).1 ≤ (range d).1 ∧ (range d).2 ≤ (range ⟨i⟩).2) ∧
          ∀ t ∈ (lib.classOf ⟨i⟩).symbols.values, t.index < (range d).1 ∨ (range d).2 ≤ t.index) :
    lib.Laid ok (·.index < n) := by
  have holds : ∀ c s, lib.Contains c s → c.index < n → (range c).1 ≤ s.index ∧ s.index < (range c).2 := by
    intro c s contains within
    induction contains with
    | own member => exact ((ranges ⟨_, within⟩).2.2 _ member).1
    | deeper member type _ ih =>
      obtain ⟨deeper, between, -⟩ := ((ranges ⟨_, within⟩).2.2 _ member).2 _ (by rw [type]; rfl)
      have inner := ih deeper
      exact ⟨between.1.trans inner.1, inner.2.trans_le between.2⟩
  have outside : ∀ c s d t, c.index < n → s ∈ (lib.classOf c).symbols.values →
      (lib.symbolOf s).type = .instance_ d → t ∈ (lib.classOf c).symbols.values → ¬ lib.Contains d t := by
    intro c s d t within member type other contains
    obtain ⟨deeper, -, apart⟩ := ((ranges ⟨c.index, within⟩).2.2 s member).2 d (by rw [type]; rfl)
    have inner := holds d t contains deeper
    have beside := apart t other
    omega
  exact ⟨fun c within => within.trans_le known, basic, fun c within => (ranges ⟨c.index, within⟩).1,
    components, fun c within e first e' second differ =>
      ⟨(ranges ⟨c.index, within⟩).2.1 e first e' second differ, fun d type => outside c e'.2 d e.2 within
        (mem_map_of_mem second) type (mem_map_of_mem first)⟩,
    fun c within s member d type => outside c s d s within member type member⟩

variable {p : List (String × SymbolId)} {flag : Bool}

theorem Route.ne_nil (route : lib.Route c p flag) : p ≠ [] := by
  cases route <;> exact cons_ne_nil _ _

theorem Route.head {e : String × SymbolId} (route : lib.Route c (e :: p) flag) :
    e ∈ (lib.classOf c).symbols.entries := by
  cases route <;> assumption

theorem Route.plain (laid : lib.Laid ok inside) (identifiers : lib.Identifiers inside)
    (route : lib.Route c p flag) (within : inside c) : ∀ k ∈ p.map Prod.fst, k ≠ "" ∧ '.' ∉ k.toList := by
  induction route with
  | leaf member _ | connector member _ _ =>
    intro k listed
    rw [List.map_singleton, mem_singleton] at listed
    exact listed ▸ identifiers _ within _ (mem_map_of_mem member)
  | inner member type kind _ ih =>
    intro k listed
    rw [List.map_cons, List.mem_cons] at listed
    obtain rfl | later := listed
    · exact identifiers _ within _ (mem_map_of_mem member)
    · exact ih (laid.deeper within (mem_map_of_mem member) type kind) k later

def Lists (lib : Library) (c : ClassId) (name : String) (f : Flat) : Prop :=
  ∀ k v, (k, v) ∈ f.symbols.entries ↔
    ∃ p, lib.Route c p v.2 ∧ k = under name (p.map Prod.fst) ∧ v.1 = lib.resolved c name p

theorem mem_mapValues (f : Flat) (change : List (List Expr) → List (List Expr)) (k : String) (v : List (List Expr) × Bool) :
    (k, v) ∈ (f.symbols.mapValues fun v => (change v.1, v.2)).entries ↔
      ∃ dims, (k, dims, v.2) ∈ f.symbols.entries ∧ v.1 = change dims := by
  rw [OrderedMap.mapValues, List.mem_map]
  constructor
  · rintro ⟨⟨j, dims, flag⟩, member, same⟩
    cases same
    exact ⟨dims, member, rfl⟩
  · rintro ⟨dims, member, same⟩
    exact ⟨(k, dims, v.2), member, by rw [← same]⟩

section Entry

variable {e : String × SymbolId} {name : String}

noncomputable def beyond (lib : Library) (name : String) (e : String × SymbolId)
    (p : List (String × SymbolId)) : List (List Expr) :=
  match (lib.symbolOf e.2).type with
  | .instance_ d => lib.resolved d (inFront name ++ e.1) p
  | _ => []

theorem resolved_cons (p : List (String × SymbolId)) : lib.resolved c name (e :: p) =
    (lib.around c name).rows ((lib.symbolOf e.2).dimensions ++ lib.beyond name e p) := rfl

theorem beyond_nil : lib.beyond name e [] = [] := by
  unfold beyond
  split <;> rfl

theorem single_iff (member : e ∈ (lib.classOf c).symbols.entries) (leaf : lib.Leaf e.2) (k : String)
    (v : List (List Expr) × Bool) :
    (k, v) ∈ [(inFront name ++ e.1, (lib.symbolOf e.2).dimensions, false)] ↔
      ∃ p, lib.Route c (e :: p) v.2 ∧ k = under name (e.1 :: p.map Prod.fst) ∧
        v.1 = (lib.symbolOf e.2).dimensions ++ lib.beyond name e p := by
  rw [mem_singleton]
  constructor
  · rintro ⟨⟩
    exact ⟨[], .leaf member leaf, (under_single name e.1).symm, by rw [beyond_nil, append_nil]⟩
  · rintro ⟨p, route, called, dims⟩
    obtain ⟨rfl, flag⟩ : p = [] ∧ v.2 = false := by
      generalize v.2 = flag at route
      cases route with
      | leaf _ _ => exact ⟨rfl, rfl⟩
      | connector _ type kind => exact absurd leaf (not_leaf type (by rw [kind]; decide))
      | inner _ type kind _ => exact absurd leaf (not_leaf type kind)
    rw [beyond_nil, append_nil] at dims
    rw [called, ← under_single name e.1, ← dims, ← flag]
    rfl

theorem inner_iff (type : (lib.symbolOf e.2).type = .instance_ d) (nonempty : e.1 ≠ "") {f : Flat}
    (lists : lib.Lists d (inFront name ++ e.1) f) (k : String) (v : List (List Expr) × Bool) :
    (k, v) ∈ (f.under (lib.symbolOf e.2).dimensions).symbols.entries ↔
      ∃ p, lib.Route d p v.2 ∧ k = under name (e.1 :: p.map Prod.fst) ∧
        v.1 = (lib.symbolOf e.2).dimensions ++ lib.beyond name e p := by
  refine (mem_mapValues f ((lib.symbolOf e.2).dimensions ++ ·) k v).trans ?_
  have longer : ∀ p, lib.Route d p v.2 →
      under name (e.1 :: p.map Prod.fst) = under (inFront name ++ e.1) (p.map Prod.fst) := by
    intro p route
    exact under_cons name e.1 nonempty (by simpa using route.ne_nil)
  have same : ∀ p, lib.beyond name e p = lib.resolved d (inFront name ++ e.1) p := by
    intro p
    rw [beyond, type]
  constructor
  · rintro ⟨dims, listed, total⟩
    obtain ⟨p, route, called, rfl⟩ := (lists k (dims, v.2)).1 listed
    exact ⟨p, route, called.trans (longer p route).symm, by rw [total, same]⟩
  · rintro ⟨p, route, called, total⟩
    exact ⟨lib.resolved d (inFront name ++ e.1) p, (lists k (lib.resolved d (inFront name ++ e.1) p, v.2)).2
      ⟨p, route, called.trans (longer p route), rfl⟩, by rw [total, same]⟩

theorem nodup_under (outer : List (List Expr)) {f : Flat} (unique : f.symbols.keys.Nodup) :
    ((f.under outer).symbols.entries.map Prod.fst).Nodup := by
  rwa [← OrderedMap.keys_mapValues] at unique

theorem contributed_spec (laid : lib.Laid ok inside) (identifiers : lib.Identifiers inside)
    (within : inside c) (member : e ∈ (lib.classOf c).symbols.entries) (inner : ClassId → String → Flat)
    (lists : ∀ d, (lib.symbolOf e.2).type = .instance_ d → (lib.classOf d).type ≠ "__builtin" →
      lib.Lists d (inFront name ++ e.1) (inner d (inFront name ++ e.1)) ∧
        (inner d (inFront name ++ e.1)).symbols.keys.Nodup) :
    (∀ k v, (k, v) ∈ lib.contributed inner (inFront name ++ e.1) e.2 ↔
      ∃ p, lib.Route c (e :: p) v.2 ∧ k = under name (e.1 :: p.map Prod.fst) ∧
        v.1 = (lib.symbolOf e.2).dimensions ++ lib.beyond name e p) ∧
      ((lib.contributed inner (inFront name ++ e.1) e.2).map Prod.fst).Nodup := by
  obtain ⟨nonempty, plain⟩ := identifiers c within e.1 (mem_map_of_mem member)
  have shape := (laid.components c within e.2 (mem_map_of_mem member)).shape
  unfold contributed
  generalize typeLib : (lib.symbolOf e.2).type = type at shape
  generalize (lib.symbolOf e.2).connectorType = kept at shape
  cases shape with
  | @elementary r _ => exact ⟨single_iff member (.inl ⟨r, typeLib⟩), List.nodup_singleton _⟩
  | @value d wraps =>
    simp only [wraps.kind, if_true]
    exact ⟨single_iff member (.inr ⟨d, typeLib, wraps.kind⟩), List.nodup_singleton _⟩
  | @inner d _ _ builtin connector =>
    simp only [builtin, connector, if_false]
    refine ⟨fun k v => ?_, nodup_under _ (lists d typeLib builtin).2⟩
    rw [inner_iff typeLib nonempty (lists d typeLib builtin).1]
    refine exists_congr fun p => and_congr ⟨.inner member typeLib builtin, fun route => ?_⟩ Iff.rfl
    generalize v.2 = flag at route
    cases route with
    | leaf _ leaf => exact absurd leaf (not_leaf typeLib builtin)
    | connector _ type kind =>
      cases typeLib.symm.trans type
      exact absurd kind connector
    | inner _ type _ route =>
      cases typeLib.symm.trans type
      exact route
  | @plug d _ deeper plug =>
    have builtin : (lib.classOf d).type ≠ "__builtin" := by
      rw [plug.kind]
      decide
    obtain ⟨listed, unique⟩ := lists d typeLib builtin
    simp only [plug.kind, if_true, show ("connector" = "__builtin") = False by decide, if_false]
    refine ⟨fun k v => ?_, ?_⟩
    · rw [List.mem_append, inner_iff typeLib nonempty listed, mem_singleton]
      constructor
      · rintro (⟨p, route, rest⟩ | same)
        · exact ⟨p, .inner member typeLib builtin route, rest⟩
        · cases same
          exact ⟨[], .connector member typeLib plug.kind, (under_single name e.1).symm, by rw [beyond_nil, append_nil]⟩
      · rintro ⟨p, route, called, dims⟩
        obtain ⟨list, flag⟩ := v
        simp only at route dims
        cases route with
        | leaf _ leaf => exact absurd leaf (not_leaf typeLib builtin)
        | connector _ _ _ =>
          refine .inr ?_
          rw [beyond_nil, append_nil] at dims
          rw [called, dims, ← under_single name e.1]
          rfl
        | inner _ type _ route =>
          cases typeLib.symm.trans type
          exact .inl ⟨p, route, called, dims⟩
    · rw [map_append, List.nodup_append]
      refine ⟨nodup_under _ unique, List.nodup_singleton _, ?_⟩
      -- the connector itself has a shorter name than everything in it
      intro k below k' only same
      rw [List.map_singleton, mem_singleton] at only
      obtain ⟨⟨k, v⟩, there, rfl⟩ := List.mem_map.1 below
      obtain ⟨p, route, called, -⟩ := (inner_iff typeLib nonempty listed k v).1 there
      have equal : under name [e.1] = under name (e.1 :: p.map Prod.fst) := by
        rw [under_single, ← called]
        exact (same.trans only).symm
      have paths := under_injective name (cons_ne_nil _ _) (cons_ne_nil _ _)
        (by simpa using plain) (fun j listed => ?_) equal
      · exact route.ne_nil (List.map_eq_nil_iff.1 (List.cons.inj paths).2.symm)
      · obtain rfl | later := List.mem_cons.1 listed
        · exact plain
        · exact (route.plain laid identifiers deeper j later).2

end Entry

theorem flat_lists (laid : lib.Laid ok inside) (identifiers : lib.Identifiers inside) (fuel : Nat)
    (name : String) (within : inside c) (bottoms : lib.Bottoms fuel c) :
    lib.Lists c name (lib.flat fuel c name) ∧ (lib.flat fuel c name).symbols.keys.Nodup := by
  induction fuel generalizing c name with
  | zero => exact bottoms.elim
  | succ fuel ih =>
    have lists : ∀ e ∈ (lib.classOf c).symbols.entries, ∀ d, (lib.symbolOf e.2).type = .instance_ d →
        (lib.classOf d).type ≠ "__builtin" → lib.Lists d (inFront name ++ e.1) (lib.flat fuel d (inFront name ++ e.1)) ∧
            (lib.flat fuel d (inFront name ++ e.1)).symbols.keys.Nodup := fun e member d type kind =>
      ih _ (laid.deeper within (mem_map_of_mem member) type kind) (bottoms e.2 (mem_map_of_mem member) d type kind)
    have brings : ∀ e ∈ (lib.classOf c).symbols.entries, _ ∧ _ := fun e member =>
      contributed_spec laid identifiers within member (lib.flat fuel) (lists e member)
    have unique : (((lib.classOf c).symbols.entries.flatMap fun e =>
        lib.contributed (lib.flat fuel) (inFront name ++ e.1) e.2).map Prod.fst).Nodup := by
      rw [List.map_flatMap, List.nodup_flatMap]
      refine ⟨fun e member => (brings e member).2, ?_⟩
      have distinct := laid.unique c within
      rw [OrderedMap.keys, List.Nodup, List.pairwise_map] at distinct
      refine distinct.imp_of_mem fun {e e'} first second differ k here there => ?_
      obtain ⟨⟨k, v⟩, listed, rfl⟩ := List.mem_map.1 here
      obtain ⟨⟨k', v'⟩, listed', same⟩ := List.mem_map.1 there
      obtain ⟨p, route, called, -⟩ := ((brings e first).1 k v).1 listed
      obtain ⟨q, route', called', -⟩ := ((brings e' second).1 k' v').1 listed'
      have paths := under_injective name (cons_ne_nil _ _) (cons_ne_nil _ _)
        (fun j in_ => (route.plain laid identifiers within j in_).2)
        (fun j in_ => (route'.plain laid identifiers within j in_).2)
        (called.symm.trans (same.symm.trans called'))
      exact differ (List.cons.inj paths).1
    have entries := foldl_addFlat_entries (lib.flat fuel) (inFront name) (lib.classOf c).symbols.entries {} unique
    unfold Library.flat
    simp only
    generalize List.foldl _ _ _ = f at entries ⊢
    replace entries : f.symbols.entries = _ := entries.trans (List.nil_append _)
    have holds : ∀ k v, (k, v) ∈ f.symbols.entries ↔ ∃ e p, lib.Route c (e :: p) v.2 ∧
        k = under name (e.1 :: p.map Prod.fst) ∧
        v.1 = (lib.symbolOf e.2).dimensions ++ lib.beyond name e p := by
      intro k v
      rw [entries, List.mem_flatMap]
      constructor
      · rintro ⟨e, member, listed⟩
        exact ⟨e, ((brings e member).1 k v).1 listed⟩
      · rintro ⟨e, p, route, rest⟩
        exact ⟨e, route.head, ((brings e route.head).1 k v).2 ⟨p, route, rest⟩⟩
    have present : (⟨inFront name, fun n => f.symbols.keys.contains n⟩ : Surroundings) = lib.around c name := by
      refine congrArg (Surroundings.mk (inFront name)) (funext fun n => ?_)
      have iff : n ∈ f.symbols.keys ↔ lib.Names c name n := by
        constructor
        · intro member
          obtain ⟨⟨k, v⟩, listed, rfl⟩ := List.mem_map.1 member
          obtain ⟨e, p, route, called, -⟩ := (holds k v).1 listed
          exact ⟨e :: p, v.2, route, called⟩
        · rintro ⟨p, flag, route, rfl⟩
          obtain ⟨e, p, rfl⟩ := List.exists_cons_of_ne_nil route.ne_nil
          exact mem_map_of_mem ((holds _ (_, flag)).2 ⟨e, p, route, rfl, rfl⟩)
      rw [Bool.eq_iff_iff, List.contains_iff_mem, iff]
      classical exact decide_eq_true_iff.symm
    rw [present]
    refine ⟨fun k v => ?_, ?_⟩
    · refine (mem_mapValues f (lib.around c name).rows k v).trans ⟨?_, ?_⟩
      · rintro ⟨dims, member, total⟩
        obtain ⟨e, p, route, called, rfl⟩ := (holds k (dims, v.2)).1 member
        exact ⟨e :: p, route, called, total⟩
      · rintro ⟨p, route, called, total⟩
        obtain ⟨e, p, rfl⟩ := List.exists_cons_of_ne_nil route.ne_nil
        have listed := (holds k ((lib.symbolOf e.2).dimensions ++ lib.beyond name e p, v.2)).2
          ⟨e, p, route, called, rfl⟩
        exact ⟨_, listed, total⟩
    · show (f.symbols.mapValues _).keys.Nodup
      rw [OrderedMap.keys_mapValues, OrderedMap.keys, entries]
      exact unique

end Library

end Modelica
