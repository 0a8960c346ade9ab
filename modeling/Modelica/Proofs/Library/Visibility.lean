import Modelica.Proofs.Library.InstanceTree

set_option autoImplicit false

namespace Modelica.Build

open Library

-- Merging the base classes of `given` leaves its own components as visible as they are. What it inherits is
-- limited by the clause it comes with and by all clauses behind that.
theorem mergeBases_shows (fuel : Nat) (lib : Library) (closed : lib.Closed) (given : ClassId)
    (known : given.index < lib.classes.size) (environment : Option ModificationId) (parent : Option ClassId)
    (around : ∀ p, parent = some p → p.index < lib.classes.size) (k : ClassId) (next : Library)
    (run : mergeBases (fuel + 1) given environment parent lib = .ok k next) :
    ∃ w begun, beginInstance given parent lib = .ok (k, w) begun ∧
      ∀ e ∈ (next.classOf k).symbols.entries, Shows (mergeBases fuel) lib given k w begun next e :=
  ((ensures_of_eq run).1 (mergeBases_merged fuel (mergeBases_merges fuel) given environment parent lib closed
    around)).2 known

-- A model with a public and, behind that, a protected base class. The components of both are public.
def heir : Library where
  classes := #[
    { classes := ⟨[(some "A", ⟨1⟩), (some "B", ⟨2⟩), (some "C", ⟨3⟩)]⟩, role := .root, origin := ⟨0⟩ },
    model 1 "A" 0 [] [("x", 0)] [],
    model 2 "B" 0 [] [("y", 1)] [],
    model 3 "C" 0 [] [] [⟨.simple "A", ⟨0⟩, .public_⟩, ⟨.simple "B", ⟨1⟩, .protected_⟩]]
  symbols := #[
    { name := "x", type := .named (.simple "Real"), visibility := .public_ },
    { name := "y", type := .named (.simple "Real"), visibility := .public_ }]
  modifications := #[⟨[]⟩, ⟨[]⟩]
  arguments := #[]

theorem heir_shows : heir.Closed ∧ ∃ k next, mergeBases 2 ⟨3⟩ none (some ⟨0⟩) heir = .ok k next ∧
    ∃ w begun, beginInstance ⟨3⟩ (some ⟨0⟩) heir = .ok (k, w) begun ∧
      ∀ e ∈ (next.classOf k).symbols.entries, Shows (mergeBases 1) heir ⟨3⟩ k w begun next e := by
  have closed : heir.Closed := by decide
  obtain ⟨k, next, run, _⟩ := exists_of_passes (mergeBases 2 ⟨3⟩ none (some ⟨0⟩)) heir
    (fun _ _ => true) (by decide +kernel)
  exact ⟨closed, k, next, run, mergeBases_shows 1 heir closed ⟨3⟩ (by decide) none _ (by decide) k next run⟩

-- The component of the first base class is public there and in its clause, but not in the result.
theorem heir_limits_earlier : (heir.symbolOf ⟨0⟩).visibility = .public_ ∧
    (heir.classOf ⟨3⟩).extends_.map (·.visibility) = [.public_, .protected_] ∧
    ∃ k next, mergeBases 2 ⟨3⟩ none (some ⟨0⟩) heir = .ok k next ∧
      ((next.classOf k).symbols.find? "x").map (fun x => (next.symbolOf x).visibility) = some .protected_ := by
  obtain ⟨k, next, run, seen⟩ := exists_of_passes (mergeBases 2 ⟨3⟩ none (some ⟨0⟩)) heir (fun k next =>
    ((next.classOf k).symbols.find? "x").map (fun x => (next.symbolOf x).visibility) == some .protected_)
    (by decide +kernel)
  exact ⟨rfl, rfl, k, next, run, eq_of_beq seen⟩

end Modelica.Build
