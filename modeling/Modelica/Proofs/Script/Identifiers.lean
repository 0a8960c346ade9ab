import Mathlib.Data.List.Nodup
import Modelica.Script

set_option autoImplicit false

namespace Modelica.Script

open Text (replaceChars)

def isJoint (c : Char) : Bool := c == '.' || c == '_'

-- No point or underscore stands beside another.
def isClear : List Char → Bool
  | c :: d :: cs => !(isJoint c && isJoint d) && isClear (d :: cs)
  | _ => true

def spread (cs : List Char) : List Char :=
  cs.flatMap fun c => if c = '.' then ['_', '_'] else [c]

theorem replaceChars_point (cs : List Char) (fuel : Nat) (enough : cs.length ≤ fuel) :
    replaceChars ['.'] ['_', '_'] fuel cs = spread cs := by
  induction cs generalizing fuel with
  | nil => cases fuel <;> rfl
  | cons c cs ih =>
    obtain _ | fuel := fuel
    · cases enough
    have rest := ih fuel (Nat.le_of_succ_le_succ enough)
    by_cases point : c = '.'
    · subst point
      exact congrArg (['_', '_'] ++ ·) rest
    · simp [replaceChars, spread, point, rest, Ne.symm point, List.isPrefixOf]

theorem toList_replace_point (s : String) : (Text.replace s "." "__").toList = spread s.toList := by
  unfold Text.replace
  rw [String.toList_ofList]
  exact replaceChars_point _ _ (Nat.le_succ _)

theorem replaceChars_spread (cs : List Char) (apart : isClear cs = true) (fuel : Nat)
    (enough : (spread cs).length ≤ fuel) : replaceChars ['_', '_'] ['.'] fuel (spread cs) = cs := by
  induction cs generalizing fuel with
  | nil => cases fuel <;> rfl
  | cons c cs ih =>
    have behind : isClear cs = true := by
      cases cs with
      | nil => rfl
      | cons d cs => exact (Bool.and_eq_true _ _ ▸ apart : _ ∧ _).2
    obtain _ | fuel := fuel
    · by_cases point : c = '.' <;> simp [spread, point] at enough
    by_cases point : c = '.'
    · subst point
      exact congrArg ('.' :: ·) (ih behind fuel (by simp [spread] at enough ⊢; omega))
    · have rest := ih behind fuel (by simpa [spread, point] using enough)
      -- an underscore is not followed by what is one or becomes two
      have single : List.isPrefixOf ['_', '_'] (c :: spread cs) = false := by
        by_cases line : c = '_'
        · subst line
          cases cs with
          | nil => rfl
          | cons d cs =>
            have other : (d ≠ '.' ∧ d ≠ '_') ∧ isClear (d :: cs) = true := by
              simpa [isClear, isJoint] using apart
            simp [spread, other.1.1, Ne.symm other.1.2, List.isPrefixOf]
        · simp [List.isPrefixOf, Ne.symm line]
      have whole : spread (c :: cs) = c :: spread cs := by simp [spread, point]
      rw [whole, replaceChars]
      simp [single, rest]

theorem isClear_append (cs ds : List Char) (first : isClear cs = true) (second : isClear ds = true) :
    isClear (cs ++ ',' :: ' ' :: ds) = true := by
  induction cs with
  | nil =>
    cases ds with
    | nil => rfl
    | cons d ds => simpa [isClear, isJoint] using second
  | cons c cs ih =>
    cases cs with
    | nil => simpa [isClear, isJoint] using ih rfl
    | cons d cs =>
      simp only [isClear, Bool.and_eq_true] at first
      exact Bool.and_eq_true _ _ ▸ ⟨first.1, ih first.2⟩

theorem toList_join_cons (n m : String) (names : List String) : (Text.join ", " (n :: m :: names)).toList =
    n.toList ++ ',' :: ' ' :: (Text.join ", " (m :: names)).toList := by
  simp [Text.join, String.toList_intercalate]

theorem isClear_join (names : List String) (each : ∀ n ∈ names, isClear n.toList = true) :
    isClear (Text.join ", " names).toList = true ∧
      (Text.join ", " (names.map fun n => Text.replace n "." "__")).toList = spread (Text.join ", " names).toList := by
  induction names with
  | nil => exact ⟨rfl, rfl⟩
  | cons n names ih =>
    rw [List.forall_mem_cons] at each
    obtain ⟨rest, same⟩ := ih each.2
    cases names with
    | nil => exact ⟨by simpa [Text.join] using each.1, by simp [Text.join, toList_replace_point]⟩
    | cons m names =>
      refine ⟨by rw [toList_join_cons]; exact isClear_append _ _ each.1 rest, ?_⟩
      rw [List.map_cons] at same
      rw [List.map_cons, List.map_cons, toList_join_cons, toList_join_cons, same, toList_replace_point]
      simp [spread]

-- Variables of different names get different identifiers, their printed names are their names, and a reference
-- has the identifier of the variable that it names.
theorem identifiers_distinct (symbols : List Symbol) (distinct : (symbols.map (·.name)).Nodup)
    (apart : ∀ s ∈ symbols, isClear s.name.toList = true)
    (free : ∀ s ∈ symbols, reserved.contains (Text.replace s.name "." "__") = false) :
    (symbols.map fun s => mangle s.name).Nodup ∧
      Text.replace (namesOf symbols) "__" "." = Text.join ", " (symbols.map (·.name)) ∧
      ∀ s ∈ symbols, ∀ (ctx : Context) (r : ComponentRef), r.name = s.name →
        fragment ctx (.ref r) = visitRef ctx r >>= fun _ => .ok (.text (mangle s.name)) := by
  have same : ∀ s ∈ symbols, mangle s.name = Text.replace s.name "." "__" := by
    intro s member
    have other := free s member
    unfold mangle
    generalize Text.replace s.name "." "__" = name at other ⊢
    exact if_neg (Bool.eq_false_iff.1 other)
  have back : ∀ s t : String, isClear s.toList = true → t.toList = spread s.toList →
      Text.replace t "__" "." = s := by
    intro s t apart same
    rw [← String.toList_inj, Text.replace, String.toList_ofList, same]
    exact replaceChars_spread _ apart _ (Nat.le_succ _)
  refine ⟨?_, ?_, fun s _ ctx r named => ?_⟩
  · refine List.Nodup.of_map (fun t => Text.replace t "__" ".") ?_
    have names : symbols.map ((fun t => Text.replace t "__" ".") ∘ fun s => mangle s.name) =
        symbols.map (·.name) := List.map_congr_left fun s member =>
      back _ _ (apart s member) ((congrArg _ (same s member)).trans (toList_replace_point _))
    rwa [List.map_map, names]
  · obtain ⟨whole, spread⟩ := isClear_join (symbols.map (·.name)) (List.forall_mem_map.2 apart)
    refine back _ _ whole (Eq.trans ?_ spread)
    rw [namesOf, List.map_map]
    exact congrArg (fun l => (Text.join ", " l).toList) (List.map_congr_left same)
  · rw [fragment, named]
    rfl

theorem point_and_underscore : ([{ name := "a.b" }, { name := "a_b" }].map fun s : Symbol =>
      mangle s.name).Nodup ∧
    Text.replace (namesOf [{ name := "a.b" }, { name := "a_b" }]) "__" "." = "a.b, a_b" := by
  obtain ⟨distinct, printed, -⟩ := identifiers_distinct [{ name := "a.b" }, { name := "a_b" }]
    (by decide) (by decide) (by decide)
  exact ⟨distinct, printed⟩

-- A point and two underscores give the same identifier and the same printed name.
theorem point_and_underscores :
    namesOf [{ name := "a.b" }, { name := "a__b" }] = "a__b, a__b" := by
  decide

end Modelica.Script
