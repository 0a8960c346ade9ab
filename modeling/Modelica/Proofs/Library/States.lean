import Mathlib.Logic.Relation
import Modelica.Library.Flatten
import Modelica.Proofs.Library.Entries

set_option autoImplicit false

namespace Modelica

open Relation (ReflTransGen)

namespace Expr

def inner : Expr → List Expr
  | .literal _ | .component _ | .modification _ => []
  | .ref (.mk _ groups child) => groups.flatMap (·.getD []) ++ child.toList.map .ref
  | .apply (.named _) es => es
  | .apply (.function r) es => .ref r :: es
  | .conditional cs es => cs ++ es
  | .array es | .tuple es => es
  | .slice a b c => [a, b, c]

def isDer : Expr → Bool
  | .apply (.named o) _ => o = "der"
  | _ => false

def Has : Expr → Expr → Prop := ReflTransGen fun x y => y ∈ x.inner

-- A reference stands in an argument of a derivative that stands in the expression.
def Differentiates (x : Expr) (r : ComponentRef) : Prop :=
  ∃ d, x.Has d ∧ d.isDer = true ∧ ∃ a ∈ d.inner, a.Has (.ref r)

section Derived

variable (inside : Bool)

theorem allDerived_eq (es : List Expr) : allDerived inside es = es.flatMap (derived inside) := by
  induction es with
  | nil => rfl
  | cons e es ih => rw [allDerived, ih, List.flatMap_cons]

theorem groupsDerived_eq (groups : List (Option (List Expr))) :
    groupsDerived inside groups = (groups.flatMap (·.getD [])).flatMap (derived inside) := by
  induction groups with
  | nil => rfl
  | cons group groups ih =>
    cases group <;> simp [groupsDerived, ih, allDerived_eq]

theorem mem_derived_iff (e : Expr) (r : ComponentRef) : r ∈ e.derived inside ↔
    (∃ x ∈ e.inner, r ∈ x.derived (inside || e.isDer)) ∨ inside = true ∧ e = .ref r := by
  match e with
  | .literal _ | .component _ | .modification _ => simp [derived, inner]
  | .ref (.mk name groups child) =>
    rw [derived, ComponentRef.derived, groupsDerived_eq]
    cases child <;> cases inside <;>
      simp [ComponentRef.childDerived, inner, isDer, derived, or_assoc, eq_comm]
  | .apply (.named o) es | .apply (.function q) es | .array es | .tuple es =>
    simp [derived, inner, isDer, allDerived_eq]
  | .conditional cs es => simp [derived, inner, isDer, allDerived_eq, or_and_right, exists_or]
  | .slice a b c => simp [derived, inner, isDer]

end Derived

theorem sizeOf_inner {x e : Expr} (member : x ∈ e.inner) : sizeOf x < sizeOf e := by
  have listed : ∀ es : List Expr, x ∈ es → sizeOf x < sizeOf es := fun _ => List.sizeOf_lt_of_mem
  match e with
  | .literal _ | .component _ | .modification _ => cases member
  | .ref (.mk name groups child) =>
    obtain here | here := List.mem_append.1 member
    · obtain ⟨_ | es, there, here⟩ := List.mem_flatMap.1 here
      · cases here
      · have := List.sizeOf_lt_of_mem there
        grind
    · cases child <;> simp at here
      grind
  | .apply (.named o) es | .apply (.function q) es | .conditional cs es | .array es | .tuple es =>
    grind [inner]
  | .slice a b c => grind [inner]

theorem mem_derived_true (e : Expr) (r : ComponentRef) : r ∈ e.derived true ↔ e.Has (.ref r) := by
  rw [mem_derived_iff, Has, ReflTransGen.cases_head_iff, or_comm]
  simp only [Bool.true_or, true_and]
  exact or_congr_right (exists_congr fun x => and_congr_right fun member => mem_derived_true x r)
termination_by sizeOf e
decreasing_by exact sizeOf_inner member

theorem mem_derived_false (e : Expr) (r : ComponentRef) : r ∈ e.derived false ↔ e.Differentiates r := by
  rw [mem_derived_iff]
  simp only [Bool.false_or, Bool.false_eq_true, false_and, or_false]
  constructor
  · rintro ⟨x, member, there⟩
    cases der : e.isDer with
    | true =>
      rw [der, mem_derived_true] at there
      exact ⟨e, .refl, der, x, member, there⟩
    | false =>
      rw [der, mem_derived_false x r] at there
      obtain ⟨d, has, rest⟩ := there
      exact ⟨d, .head member has, rest⟩
  · rintro ⟨d, has, der, a, listed, there⟩
    obtain rfl | ⟨x, member, has⟩ := has.cases_head
    · exact ⟨a, listed, by rwa [der, mem_derived_true]⟩
    · refine ⟨x, member, ?_⟩
      cases other : e.isDer with
      | true => exact (mem_derived_true x r).2 ((has.tail listed).trans there)
      | false => exact (mem_derived_false x r).2 ⟨d, has, der, a, listed, there⟩
termination_by sizeOf e
decreasing_by all_goals exact sizeOf_inner member

end Expr

namespace Library

-- A thing is inside another if it is reached from it by going to parts.
def Inside (lib : Library) : Entry → Entry → Prop :=
  ReflTransGen fun e d => d ∈ lib.children e

def Differentiated (lib : Library) (node : ClassId) (r : ComponentRef) : Prop :=
  ∃ e x, lib.Inside (.class_ node) e ∧ .expr x ∈ lib.pieces e ∧ x.Differentiates r

def IsState (lib : Library) (node : ClassId) (s : SymbolId) : Prop :=
  ∃ r, lib.Differentiated node r ∧ (lib.classOf node).symbols.find? r.name = some s

theorem mem_derived_succ (lib : Library) (depth : Nat) (e : Entry) (r : ComponentRef) :
    r ∈ lib.derived (depth + 1) e ↔ (∃ x, .expr x ∈ lib.pieces e ∧ x.Differentiates r) ∨
      ∃ d ∈ lib.children e, r ∈ lib.derived depth d := by
  simp only [derived, children, parts, List.mem_flatMap, List.mem_filterMap]
  constructor
  · rintro ⟨x | d, member, there⟩
    · obtain here | there := List.mem_append.1 there
      · exact .inl ⟨x, member, (x.mem_derived_false r).1 here⟩
      · obtain ⟨d, inside, there⟩ := List.mem_flatMap.1 there
        obtain ⟨part, listed, same⟩ := List.mem_filterMap.1 inside
        exact .inr ⟨d, ⟨part, ⟨_, member, listed⟩, same⟩, there⟩
    · exact .inr ⟨d, ⟨.entry d, ⟨_, member, List.mem_singleton.2 rfl⟩, rfl⟩, there⟩
  · rintro (⟨x, member, der⟩ | ⟨d, ⟨part, ⟨x | d', member, listed⟩, same⟩, there⟩)
    · exact ⟨.expr x, member, List.mem_append_left _ ((x.mem_derived_false r).2 der)⟩
    · have inside := List.mem_filterMap.2 ⟨part, listed, same⟩
      exact ⟨_, member, List.mem_append_right _ (List.mem_flatMap.2 ⟨d, inside, there⟩)⟩
    · cases List.mem_singleton.1 listed
      cases same
      exact ⟨_, member, there⟩

-- an unknown number stands for an entry without parts
theorem has_of_mem_children {lib : Library} {e d : Entry} (leads : d ∈ lib.children e) : lib.Has e := by
  refine Classical.byContradiction fun unknown => ?_
  cases e
  all_goals
    have gone := Array.getElem?_eq_none (not_lt.1 unknown)
    simp only [children, Library.parts, Library.pieces, Library.classOf, Library.symbolOf, modificationOf,
      argumentOf, gone] at leads
    exact List.not_mem_nil leads

-- What is reached is also reached on a way that does not come back to where it starts.
theorem exists_leaves {α : Type} {step : α → α → Prop} {a b : α} (reached : ReflTransGen step a b)
    (apart : a ≠ b) : ∃ c, step a c ∧ ReflTransGen (fun x y => step x y ∧ x ≠ a) c b := by
  have last : ∀ x, ReflTransGen step x b → ReflTransGen (fun x y => step x y ∧ x ≠ a) x b ∨
      ∃ c, step a c ∧ ReflTransGen (fun x y => step x y ∧ x ≠ a) c b := by
    intro x way
    induction way using ReflTransGen.head_induction_on with
    | refl => exact .inl .refl
    | @head x y first _ ih =>
      refine ih.elim (fun rest => ?_) .inr
      obtain rfl | other := Classical.em (x = a)
      · exact .inr ⟨y, first, rest⟩
      · exact .inl (.head ⟨first, other⟩ rest)
  refine (last a reached).resolve_left fun way => ?_
  obtain same | ⟨c, ⟨_, other⟩, _⟩ := way.cases_head
  · exact apart same
  · exact other rfl

-- the steps that are left to take lead from things that have not been left behind yet
theorem mem_derived_of_reached {lib : Library} {r : ComponentRef} {d e : Entry} {x : Expr}
    {step : Entry → Entry → Prop} (here : .expr x ∈ lib.pieces d) (der : x.Differentiates r) (n : Nat)
    (left : List Entry) (short : left.length ≤ n)
    (steps : ∀ a b, step a b → b ∈ lib.children a ∧ a ∈ left) (reached : ReflTransGen step e d) :
    r ∈ lib.derived (n + 1) e := by
  rw [mem_derived_succ]
  obtain rfl | apart := Classical.em (e = d)
  · exact .inl ⟨x, here, der⟩
  · obtain ⟨c, first, rest⟩ := exists_leaves reached apart
    obtain ⟨child, taken⟩ := steps e c first
    have fewer := List.length_erase_of_mem taken
    have more := List.length_pos_of_mem taken
    obtain _ | n := n
    · omega
    refine .inr ⟨c, child, mem_derived_of_reached here der n (left.erase e) (by omega) ?_ rest⟩
    rintro a b ⟨step, other⟩
    exact ⟨(steps a b step).1, (List.mem_erase_of_ne other).2 (steps a b step).2⟩

theorem mem_derived (lib : Library) (node : ClassId) (r : ComponentRef) :
    r ∈ lib.derived (lib.size + 1) (.class_ node) ↔ lib.Differentiated node r := by
  have found : ∀ depth e, r ∈ lib.derived depth e →
      ∃ d x, lib.Inside e d ∧ .expr x ∈ lib.pieces d ∧ x.Differentiates r := by
    intro depth
    induction depth with
    | zero => exact fun _ member => absurd member List.not_mem_nil
    | succ depth ih =>
      intro e member
      obtain ⟨x, here, der⟩ | ⟨d, child, there⟩ := (mem_derived_succ ..).1 member
      · exact ⟨e, x, .refl, here, der⟩
      · obtain ⟨d', x, inside, rest⟩ := ih d there
        exact ⟨d', x, .head child inside, rest⟩
  refine ⟨found _ _, ?_⟩
  rintro ⟨e, x, inside, here, der⟩
  refine mem_derived_of_reached here der lib.size lib.listed (by simp [listed, size, Nat.add_assoc]) ?_ inside
  exact fun a b leads => ⟨leads, mem_listed (has_of_mem_children leads)⟩

-- The same library, but some components have the prefix of a state.
structure Marked (lib : Library) (state : SymbolId → Prop) (next : Library) : Prop where
  frame : next = { lib with symbols := next.symbols }
  size : next.symbols.size = lib.symbols.size
  marked : ∀ s, s.index < lib.symbols.size → state s → next.symbolOf s =
    if "state" ∈ (lib.symbolOf s).prefixes then lib.symbolOf s
    else { lib.symbolOf s with prefixes := (lib.symbolOf s).prefixes ++ ["state"] }
  other : ∀ s, ¬ state s → next.symbolOf s = lib.symbolOf s

namespace Marked

variable {lib next : Library} {state : SymbolId → Prop}

section

variable (marked : lib.Marked state next)
include marked

theorem classOf (c : ClassId) : next.classOf c = lib.classOf c := by
  rw [marked.frame]
  rfl

theorem prefixes {s : SymbolId} (known : s.index < lib.symbols.size) (holds : state s) :
    "state" ∈ (next.symbolOf s).prefixes := by
  rw [marked.marked s known holds]
  split
  · assumption
  · simp

-- Prefixes are no parts of a component, so the same references are differentiated.
theorem derived (depth : Nat) (e : Entry) : next.derived depth e = lib.derived depth e := by
  have pieces : ∀ e, next.pieces e = lib.pieces e := by
    intro e
    cases e with
    | symbol s =>
      by_cases holds : state s
      · by_cases known : s.In lib
        · rw [Library.pieces, Library.pieces, marked.marked s known holds]
          split <;> rfl
        · simp [Library.pieces, symbolOf, known, marked.size]
      · rw [Library.pieces, Library.pieces, marked.other s holds]
    | _ =>
      rw [marked.frame]
      rfl
  induction depth generalizing e with
  | zero => rfl
  | succ depth ih =>
    unfold Library.derived
    rw [pieces, show next.derived depth = lib.derived depth from funext ih]

end

end Marked

end Library

namespace Build

open Library

theorem markState_marks {lib mid : Library} {state : SymbolId → Prop} (node : ClassId) (r : ComponentRef)
    (marked : lib.Marked state mid) : (markState node r).Ensures mid (fun _ next => r.child = none ∧
      lib.Marked (fun s => state s ∨ (lib.classOf node).symbols.find? r.name = some s) next)
      fun e _ => e = .broken "" ∧ r.child ≠ none := by
  unfold markState
  cases child : r.child with
  | some c => simp [ensures_bind, ensures_throw]
  | none =>
    simp only [Option.isSome_none, Bool.false_eq_true, if_false, ensures_bind, ensures_classOf, marked.classOf]
    cases found : (lib.classOf node).symbols.find? r.name with
    | none => exact .pure ⟨trivial, by simpa using marked⟩
    | some s =>
      refine (ensures_updateSymbol s _).2 ⟨trivial, ?_, ?_, fun t known => ?_, fun t no => ?_⟩
      · rw [modifySymbol, marked.frame]
      · rw [symbols_size_modifySymbol, marked.size]
      · obtain rfl | apart := Decidable.em (s = t)
        · intro _
          rw [symbolOf_modifySymbol_self _ _ _ (marked.size.symm ▸ known)]
          by_cases before : state s
          · have present := marked.prefixes known before
            rw [← marked.marked s known before, if_pos (List.contains_iff_mem.2 present)]
          · simp only [marked.other s before, List.contains_iff_mem]
        · rintro (holds | same)
          · rw [symbolOf_modifySymbol_ne _ _ _ _ apart, marked.marked t known holds]
          · exact absurd (Option.some.inj same) apart
      · have apart : s ≠ t := fun same => no (.inr (same ▸ rfl))
        rw [symbolOf_modifySymbol_ne _ _ _ _ apart, marked.other t fun holds => no (.inl holds)]

theorem annotateStates_again {lib next : Library} {node : ClassId} (marked : lib.Marked (lib.IsState node) next)
    (plain : ∀ r, lib.Differentiated node r → r.child = none) :
    (annotateStates node).Returns next fun _ last => last = next := by
  have size : next.size = lib.size := by
    rw [Library.size, marked.size, marked.frame]
    rfl
  rw [annotateStates, Returns, bind_get, bind_pure_unit]
  refine ensures_forEach _ _ (· = next) rfl ?_
  rintro r listed _ rfl
  rw [size, marked.derived, mem_derived] at listed
  simp only [markState, plain r listed, Option.isSome_none, Bool.false_eq_true, if_false, ensures_bind,
    ensures_classOf, marked.classOf]
  cases found : (lib.classOf node).symbols.find? r.name with
  | none => exact .pure rfl
  | some s =>
    rw [ensures_updateSymbol, modifySymbol, modify_eq_self _ _ _ {}]
    intro known
    have present := marked.prefixes (marked.size ▸ known) ⟨r, listed, found⟩
    exact if_pos (List.contains_iff_mem.2 present)

-- Exactly the states get the prefix, each once, and a second run changes nothing.
theorem annotateStates_marks (lib : Library) (node : ClassId) :
    (annotateStates node).Ensures lib (fun _ next => lib.Marked (lib.IsState node) next ∧
      (annotateStates node).Returns next (fun _ last => last = next) ∧
        ∀ r, lib.Differentiated node r → r.child = none)
      fun e _ => e = .broken "" ∧ ∃ r, lib.Differentiated node r ∧ r.child ≠ none := by
  rw [annotateStates, bind_get, bind_pure_unit]
  refine ensures_forIn _ _ _ (fun (done : List ComponentRef) _ now => (∀ r ∈ done, r.child = none) ∧
    lib.Marked (fun s => ∃ r ∈ done, (lib.classOf node).symbols.find? r.name = some s) now)
    ⟨by simp, rfl, rfl, by simp, fun _ _ => rfl⟩ ?_ ?_
  · rintro done r rest ⟨⟩ now all ⟨plain, marked⟩
    have listed : lib.Differentiated node r := (mem_derived lib node r).1 (by simp [all])
    rw [ensures_bind]
    refine (markState_marks node r marked).mono ?_ fun e _ fails => ⟨fails.1, r, listed, fails.2⟩
    rintro ⟨⟩ next ⟨simple, marked⟩
    refine .pure ⟨by simpa [or_imp, forall_and] using ⟨plain, simple⟩, ?_⟩
    simpa [or_and_right, exists_or] using marked
  · rintro ⟨⟩ now ⟨plain, marked⟩
    simp only [mem_derived] at plain marked
    exact ⟨marked, annotateStates_again marked plain, plain⟩

-- Under the derivative stand a parameter and, only as a subscript, an integer.
def scaled : Library where
  classes := #[
    { classes := ⟨[(some "M", ⟨1⟩)]⟩, role := .root, origin := ⟨0⟩ },
    { name := some "M"
      type := "model"
      symbols := ⟨[("x", ⟨0⟩), ("p", ⟨1⟩), ("k", ⟨2⟩)]⟩
      equations := [.simple (.apply (.named "der") [.apply (.named "*") [.ref (.simple "p"),
        .ref (.mk "x" [some [.ref (.simple "k")]] none)]]) (.integer 1) ""]
      parent := some ⟨0⟩
      origin := ⟨1⟩ }]
  symbols := #[
    { name := "x", type := .named (.simple "Real"), dimensions := [[.integer 3]] },
    { name := "p", type := .named (.simple "Real"), prefixes := ["parameter"] },
    { name := "k", type := .named (.simple "Integer") }]

def prefixesOf (root : ClassId) (lib : Library) : List (List String) :=
  (lib.classOf root).classes.values.flatMap fun c =>
    (lib.classOf c).symbols.values.map fun s => (lib.symbolOf s).prefixes

theorem parameter_marked : ∃ root next, flatten ⟨0⟩ (.simple "M") scaled = .ok root next ∧
    (prefixesOf root next == [["state"], ["parameter", "state"], ["state"]]) = true :=
  exists_of_passes _ _ _ (by decide +kernel)

end Build

end Modelica
