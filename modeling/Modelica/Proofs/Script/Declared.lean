import Mathlib.Data.List.Perm.Basic
import Modelica.Proofs.Library.Outcome
import Modelica.Script

set_option autoImplicit false

namespace Modelica.Script

-- The declarations that bind a name. An output is bound as a state or as an unknown.
def Declarations.bound (d : Declarations) : List Symbol :=
  d.states ++ d.unknowns ++ d.constants ++ d.parameters ++ d.inputs

-- The prefixes under which a variable is declared.
def roles (s : Symbol) : List String :=
  s.prefixes.filter fun word => ["state", "constant", "parameter", "input"].contains word ||
    word == "output" && !s.prefixes.contains "state"

def times (s : Symbol) : Nat :=
  if s.prefixes = [] then 1 else (roles s).length

theorem foldl_addAs (s : Symbol) (words : List String) (d : Declarations) :
    words.foldl (fun d word => d.addAs s word) d =
      { states := d.states ++ .replicate (words.count "state") s
        unknowns := d.unknowns
        constants := d.constants ++ .replicate (words.count "constant") s
        parameters := d.parameters ++ .replicate (words.count "parameter") s
        inputs := d.inputs ++ .replicate (words.count "input") s
        outputs := d.outputs ++ .replicate (words.count "output") s } := by
  induction words generalizing d with
  | nil => simp
  | cons word words ih =>
    rw [List.foldl_cons, ih]
    unfold Declarations.addAs
    split <;> simp_all [List.replicate_succ]

def named (word : String) (symbols : List Symbol) : List Symbol :=
  symbols.flatMap fun s => .replicate (s.prefixes.count word) s

theorem mem_named (word : String) (symbols : List Symbol) (s : Symbol) :
    s ∈ named word symbols ↔ s ∈ symbols ∧ word ∈ s.prefixes := by
  simp [named, List.count_eq_zero]

theorem foldl_add (symbols : List Symbol) (d : Declarations) : symbols.foldl Declarations.add d =
      { states := d.states ++ named "state" symbols
        unknowns := d.unknowns ++ symbols.flatMap fun s => if s.prefixes = [] then [s] else []
        constants := d.constants ++ named "constant" symbols
        parameters := d.parameters ++ named "parameter" symbols
        inputs := d.inputs ++ named "input" symbols
        outputs := d.outputs ++ named "output" symbols } := by
  induction symbols generalizing d with
  | nil => simp [named]
  | cons s symbols ih =>
    rw [List.foldl_cons, ih, Declarations.add, foldl_addAs]
    by_cases plain : s.prefixes = [] <;> simp [plain, named]

theorem byOrder_perm (symbols : List Symbol) : (byOrder symbols).Perm symbols := by
  have insert : ∀ s sorted, (insertByOrder s sorted).Perm (s :: sorted) := by
    intro s sorted
    induction sorted with
    | nil => rfl
    | cons t rest ih =>
      unfold insertByOrder
      split
      · rfl
      · exact (ih.cons t).trans (.swap s t rest)
  have go : ∀ sorted, (symbols.foldl (fun sorted s => insertByOrder s sorted) sorted).Perm (symbols ++ sorted) := by
    induction symbols with
    | nil => exact fun _ => .refl _
    | cons s symbols ih =>
      exact fun sorted => (ih _).trans (((insert s sorted).append_left _).trans List.perm_middle)
  simpa [byOrder] using go []

theorem length_roles (s : Symbol) : (roles s).length =
    s.prefixes.count "state" + (if s.prefixes.contains "state" then 0 else s.prefixes.count "output") +
      s.prefixes.count "constant" + s.prefixes.count "parameter" + s.prefixes.count "input" := by
  unfold roles
  generalize s.prefixes.contains "state" = state
  induction s.prefixes with
  | nil => cases state <;> rfl
  | cons word words ih =>
    simp only [List.filter_cons, List.count_cons, List.contains_cons, List.contains_nil] at ih ⊢
    cases state <;> grind

-- Every variable is declared as often as it has roles.
theorem bound_perm (symbols : List Symbol) : (declarations symbols).bound.Perm
    (symbols.flatMap fun s => .replicate (times s) s) := by
  refine .trans ?_ ((byOrder_perm symbols).flatMap_right _)
  simp only [declarations, foldl_add, Declarations.bound, List.nil_append]
  generalize byOrder symbols = sorted
  have outputs : (named "output" sorted).filter (fun s => !s.prefixes.contains "state") = sorted.flatMap fun s =>
        .replicate (if s.prefixes.contains "state" then 0 else s.prefixes.count "output") s := by
    unfold named
    induction sorted with
    | nil => rfl
    | cons s sorted ih =>
      rw [List.flatMap_cons, List.flatMap_cons, List.filter_append, ih, List.filter_replicate]
      cases s.prefixes.contains "state" <;> rfl
  have roles : sorted.flatMap (fun s => .replicate (times s) s) = sorted.flatMap fun s =>
      .replicate (s.prefixes.count "state") s ++ ((if s.prefixes = [] then [s] else []) ++
        .replicate (if s.prefixes.contains "state" then 0 else s.prefixes.count "output") s) ++
      .replicate (s.prefixes.count "constant") s ++ .replicate (s.prefixes.count "parameter") s ++
      .replicate (s.prefixes.count "input") s := by
    congr 1
    funext s
    by_cases plain : s.prefixes = []
    · simp [times, plain]
    · simp [times, plain, length_roles]
  rw [outputs, roles]
  have join : ∀ {f g : Symbol → List Symbol} {xs ys : List Symbol}, xs.Perm (sorted.flatMap f) →
      ys.Perm (sorted.flatMap g) → (xs ++ ys).Perm (sorted.flatMap fun s => f s ++ g s) :=
    fun left right => (left.append right).trans (List.flatMap_append_perm _ _ _)
  exact join (join (join (join .rfl (join .rfl .rfl)) .rfl) .rfl) .rfl

open Classical in
theorem count_flatMap_replicate (n : Symbol → Nat) (s : Symbol) (symbols : List Symbol) :
    (symbols.flatMap fun t => .replicate (n t) t).count s = n s * symbols.count s := by
  induction symbols with
  | nil => simp
  | cons t symbols ih =>
    rw [List.flatMap_cons, List.count_append, ih, List.count_replicate, List.count_cons]
    by_cases same : t = s <;> simp [same, Nat.mul_add, Nat.add_comm]

theorem declared_once_iff (symbols : List Symbol) :
    (declarations symbols).bound.Perm (symbols.flatMap fun s =>
      .replicate (if s.prefixes = [] then 1 else (roles s).length) s) ∧
    ((declarations symbols).bound.Perm symbols ↔
      ∀ s ∈ symbols, s.prefixes = [] ∨ ∃ role, roles s = [role]) ∧
    ∀ s ∈ (declarations symbols).outputs,
      s ∈ (declarations symbols).states ∨ s ∈ (declarations symbols).unknowns := by
  have once : ∀ s, times s = 1 ↔ s.prefixes = [] ∨ ∃ role, roles s = [role] := by
    intro s
    by_cases plain : s.prefixes = [] <;> simp [times, plain, List.length_eq_one_iff]
  refine ⟨bound_perm symbols, ⟨fun perm s member => (once s).1 ?_, fun all => ?_⟩, fun s member => ?_⟩
  · classical
    have same := (bound_perm symbols).symm.trans perm |>.count_eq s
    rw [count_flatMap_replicate] at same
    exact Nat.eq_of_mul_eq_mul_right (List.count_pos_iff.2 member) (same.trans (Nat.one_mul _).symm)
  · refine (bound_perm symbols).trans (.of_eq ?_)
    rw [List.flatMap_congr (g := fun s => [s]) fun s member => by rw [(once s).2 (all s member)]; rfl]
    simp
  · simp only [declarations, foldl_add, List.nil_append, List.mem_append, List.mem_filter] at member ⊢
    by_cases state : "state" ∈ s.prefixes
    · rw [mem_named] at member ⊢
      exact .inl ⟨member.1, state⟩
    · exact .inr (.inr ⟨member, by simpa using state⟩)

-- A model `M` with a discrete variable.
def counter : Library where
  classes := #[
    { classes := ⟨[(some "M", ⟨1⟩)]⟩, role := .root, origin := ⟨0⟩ },
    { name := some "M"
      type := "model"
      symbols := ⟨[("x", ⟨0⟩)]⟩
      equations := [.simple (.ref (.simple "x")) (.integer 1) ""]
      parent := some ⟨0⟩
      origin := ⟨1⟩ }]
  symbols := #[{ name := "x", type := .named (.simple "Real"), prefixes := ["discrete"] }]

def undeclared (root : ClassId) (lib : Library) : Bool :=
  (lib.classOf root).classes.values.any fun c =>
    (classEquations (context lib) (lib.classOf c)).toOption = some ["x - (1)"] &&
      (declarations ((lib.classOf c).symbols.values.map lib.symbolOf)).bound.isEmpty

-- The equation of `x` stands in the program, but nothing declares `x`.
theorem discrete_undeclared : ∃ root next,
    Build.flatten ⟨0⟩ (.simple "M") counter = .ok root next ∧ undeclared root next = true :=
  Build.exists_of_passes _ _ _ (by decide +kernel)

end Modelica.Script
