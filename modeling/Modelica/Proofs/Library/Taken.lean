import Modelica.Library.Flatten
import Modelica.Proofs.Library.Outcome

set_option autoImplicit false

namespace Modelica

-- What names lead to: a component, or nothing where the class of a component on the way is missing.
def Library.Leading (lib : Library) : Bool → ClassId → List String → Option SymbolId → Prop
  | _, _, [], _ => False
  | _, c, [name], found => ∃ s, (lib.classOf c).symbols.find? name = some s ∧ found = some s
  | around, c, name :: next :: rest, found =>
    (∃ d s, lib.findClassIn? around c [name] = some d ∧ lib.Leading false d (next :: rest) (some s) ∧
      found = some s) ∨
    (∀ d, lib.findClassIn? around c [name] = some d → lib.Leading false d (next :: rest) none) ∧
      ∃ s, (lib.classOf c).symbols.find? name = some s ∧ "constant" ∈ (lib.symbolOf s).prefixes ∧
        match (lib.symbolOf s).type with
        | .instance_ d => lib.Leading false d (next :: rest) found
        | .named r => match lib.findClass? c r.names with
          | some d => lib.Leading false d (next :: rest) found
          | none => found = none
        | .connector _ => False

namespace Build

open Library

variable {lib : Library} {around : Bool} {c : ClassId} {names : List String}

-- A search that changes nothing and finds out what names lead to.
def Searches (lib : Library) (leading : Option SymbolId → Prop) (x : Build SymbolId) : Prop :=
  x.Ensures lib (fun s next => next = lib ∧ ∀ o, leading o ↔ o = some s)
    fun e next => next = lib ∧ ∀ o, leading o ↔ o = none ∧ ∃ text, e = .classNotFound text

theorem searches_throw {leading : Option SymbolId → Prop} {e : Error} (nowhere : ∀ o, ¬ leading o)
    (other : ∀ text, e ≠ .classNotFound text) : Searches lib leading (throw e) :=
  (ensures_throw _).2 ⟨rfl, by simp [nowhere, other]⟩

theorem Searches.congr {leading leading' : Option SymbolId → Prop} {x : Build SymbolId}
    (searches : Searches lib leading x) (same : ∀ o, leading' o ↔ leading o) : Searches lib leading' x := by
  rwa [funext fun o => propext (same o)]

theorem findConstantFrom_searches (fuel : Nat) (enough : names.length ≤ fuel) :
    Searches lib (lib.Leading around c names) (findConstantFrom fuel around c names) := by
  induction fuel generalizing around c names with
  | zero =>
    cases List.length_eq_zero_iff.1 (Nat.le_zero.1 enough)
    exact searches_throw (by simp [Leading]) (by simp)
  | succ fuel ih =>
    obtain _ | ⟨name, _ | ⟨next, rest⟩⟩ := names
    · exact searches_throw (by simp [Leading]) (by simp)
    · unfold findConstantFrom Searches
      rw [bind_classOf]
      cases found : (lib.classOf c).symbols.find? name with
      | none => exact searches_throw (by simp [Leading, found]) (by simp)
      | some s => exact .pure ⟨rfl, by simp [Leading, found]⟩
    have on (d : ClassId) : Searches lib (lib.Leading false d (next :: rest)) _ := ih (Nat.le_of_succ_le_succ enough)
    rw [findConstantFrom.eq_4 _ _ _ _ _ (List.cons_ne_nil _ _), Searches, bind_get]
    extract_lets onward
    -- there is no class of the name, or the way behind it is lost
    have missed (lost : ∀ d, lib.findClassIn? around c [name] = some d →
        ∀ o, lib.Leading false d (next :: rest) o ↔ o = none) :
        Searches lib (lib.Leading around c (name :: next :: rest)) (onward none) := by
      show Ensures (_ >>= _) _ _ _
      rw [bind_classOf]
      cases found : (lib.classOf c).symbols.find? name with
      | none => exact searches_throw (by simp [Leading, found]; grind) (by simp)
      | some t =>
        dsimp only
        rw [bind_symbolOf]
        split
        · next constant =>
          replace constant := List.contains_iff_mem.1 constant
          cases type : (lib.symbolOf t).type with
          | instance_ d =>
            refine (on d).congr fun o => ?_
            simp [Leading, found, constant, type]
            grind
          | named r =>
            dsimp only [findClass]
            rw [ensures_bind, bind_get]
            cases known : lib.findClass? c r.names with
            | none =>
              refine (ensures_throw _).2 ⟨rfl, fun o => ?_⟩
              simp [Leading, found, constant, type, known]
              grind
            | some d =>
              refine .pure ((on d).congr fun o => ?_)
              simp [Leading, found, constant, type, known]
              grind
          | connector kind =>
            refine searches_throw (fun o => ?_) (by simp)
            simp [Leading, found, type]
            grind
        · next constant => exact searches_throw (by simp [Leading, found]; grind) (by simp)
    cases inside : lib.findClassIn? around c [name] with
    | none =>
      dsimp only
      rw [pure_bind]
      exact missed (by simp [inside])
    | some d =>
      dsimp only
      rw [ensures_bind, ensures_tryCatch, ensures_map]
      refine Ensures.mono (on d) ?_ ?_
      · rintro s _ ⟨rfl, leads⟩
        exact .pure ⟨rfl, by simp [Leading, inside, leads]⟩
      · rintro e _ ⟨rfl, leads⟩
        split
        · exact .pure (missed (by simpa [inside] using leads))
        · next other =>
          have fails : ∀ text, e ≠ .classNotFound text := fun text same => other text same
          exact (ensures_throw _).2 ⟨rfl, by simp [Leading, inside, leads, fails]⟩

-- A component is taken exactly if the reference has a point and leads to it.
theorem constantBehind_takes (lib : Library) (c : ClassId) (r : ComponentRef) :
    (constantBehind? c r).Ensures lib (fun taken next => next = lib ∧
      ∀ s, taken = some s ↔ r.child ≠ none ∧ lib.Leading true c r.names (some s))
      fun _ next => next = lib ∧ r.child ≠ none ∧ ∀ o, ¬ lib.Leading true c r.names o := by
  unfold constantBehind?
  cases child : r.child with
  | none => exact .pure ⟨rfl, by simp⟩
  | some q =>
    simp only [Option.isNone_some, Bool.false_eq_true, if_false, ensures_tryCatch, ensures_map]
    refine Ensures.mono (findConstantFrom_searches r.names.length le_rfl) ?_ ?_
    · rintro s _ ⟨rfl, leads⟩
      exact ⟨rfl, by simp [leads, eq_comm]⟩
    · rintro e _ ⟨rfl, leads⟩
      split
      case h_5 other _ _ _ => exact (ensures_throw _).2 ⟨rfl, by simp, by simpa [leads] using other⟩
      all_goals exact .pure ⟨rfl, by simp [leads]⟩

-- The model `M` has a component `n` of `C`. Beside it stands a model `n` with a discrete `x`.
def namesake : Library where
  classes := #[
    { classes := ⟨[(some "n", ⟨1⟩), (some "C", ⟨2⟩), (some "M", ⟨3⟩)]⟩, role := .root, origin := ⟨0⟩ },
    { name := some "n", type := "model", symbols := ⟨[("x", ⟨0⟩)]⟩, parent := some ⟨0⟩, origin := ⟨1⟩ },
    { name := some "C", type := "model", symbols := ⟨[("x", ⟨1⟩)]⟩, parent := some ⟨0⟩, origin := ⟨2⟩ },
    { name := some "M", type := "model", symbols := ⟨[("n", ⟨2⟩)]⟩
      equations := [.simple (.ref (.mk "n" [none] (some (.simple "x")))) (.integer 1) ""]
      parent := some ⟨0⟩, origin := ⟨3⟩ }]
  symbols := #[
    { name := "x", type := .named (.simple "Real"), prefixes := ["discrete"] },
    { name := "x", type := .named (.simple "Real") },
    { name := "n", type := .named (.simple "C") }]

theorem namesake_taken : ∃ root next, flatten ⟨0⟩ (.simple "M") namesake = .ok root next ∧
    ((next.classOf root).classes.values.any fun c => ((next.classOf c).symbols.find? "n.x").any fun s =>
      (next.symbolOf s).prefixes == ["discrete"]) = true :=
  exists_of_passes _ _ _ (by decide +kernel)

end Build

end Modelica
