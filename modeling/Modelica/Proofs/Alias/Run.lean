import Mathlib.Data.List.Induction
import Modelica.Proofs.Alias.Change

set_option autoImplicit false

namespace Modelica

open OrderedMap

inductive AliasStep where
  | add (a b : SignedName)
  | remove (c : SignedName)
deriving DecidableEq

namespace AliasStep

def perform : AliasStep → AliasRelation.Change Unit
  | .add a b => AliasRelation.add a.text b.text
  | .remove c => AliasRelation.remove c.text

def performAll (steps : List AliasStep) : AliasRelation.Change Unit := forM steps perform

end AliasStep

namespace AliasRelation

def leftBy {α : Type} (change : Change α) (r : AliasRelation) : AliasRelation :=
  match change r with
  | .ok _ after => after
  | .error _ after => after

theorem leftBy_of_ok {α : Type} {change : Change α} {r after : AliasRelation} {x : α}
    (run : change r = .ok x after) : leftBy change r = after := by
  simp [leftBy, run]

@[simp] theorem signOf_negate (v : SignedName) : signOf v.negate = ((signOf v).1, -(signOf v).2) := by
  by_cases positive : v.IsPositive <;> simp [signOf, positive]

theorem eq_or_negate_of_signOf {v w : SignedName} (same : (signOf v).1 = (signOf w).1) : v = w ∨ v.negate = w := by
  unfold signOf at same
  split at same <;> split at same <;> simp only [SignedName.text_inj] at same
  · exact .inl same
  · right
    rw [same, SignedName.negate_negate]
  · exact .inr same
  · exact .inl (SignedName.negate_inj.1 same)

theorem signOf_of_positive {v : SignedName} (positive : v.IsPositive) : signOf v = (v.text, 1) := by
  simp [signOf, positive]

end AliasRelation

open AliasRelation

structure Account where
  relation : AliasRelation := {}
  pairs : Set AliasPair := ∅
  -- The names whose class was, when it last was in a sum, the sum of two different classes.
  joined : Set SignedName := ∅

namespace Account

open Aliased

-- Every pair that is added counts. To remove a canonical name makes all pairs of its class void.
def after (s : Account) : AliasStep → Account
  | .add a b =>
    { relation := leftBy (AliasStep.add a b).perform s.relation
      pairs := insert (a, b) s.pairs
      joined := {v | Near (insert (a, b) s.pairs) a v ∧ ¬Aliased s.pairs a b ∨
        ¬Near (insert (a, b) s.pairs) a v ∧ v ∈ s.joined} }
  | .remove c =>
    { relation := leftBy (AliasStep.remove c).perform s.relation
      pairs := {p ∈ s.pairs | c.text ∈ s.relation.canonicalNames → ¬Near s.pairs c p.1}
      joined := {v ∈ s.joined | c.text ∈ s.relation.canonicalNames → ¬Near s.pairs c v} }

def ofRun (steps : List AliasStep) : Account := steps.foldl after {}

theorem ofRun_concat (steps : List AliasStep) (step : AliasStep) :
    ofRun (steps ++ [step]) = (ofRun steps).after step := by
  simp [ofRun]

def Peaceful (steps : List AliasStep) : Prop :=
  ∀ done, done <+: steps → Consistent (ofRun done).pairs

structure Sound (s : Account) : Prop where
  nodup (v : SignedName) : (s.relation.aliases v.text).Nodup
  mem_aliases (v : SignedName) (k : String) :
    k ∈ s.relation.aliases v.text ↔ ∃ w : SignedName, w.text = k ∧ Aliased s.pairs v w
  closed {v w : SignedName} :
    v.text ∈ s.relation.classes.keys → Near s.pairs v w → w.text ∈ s.relation.classes.keys
  keys_canonicals (v : SignedName) :
    v.text ∈ s.relation.canonicals.keys ↔ v.text ∈ s.relation.classes.keys
  leader_aliased (v : SignedName) : ∃ w, Aliased s.pairs v w ∧ s.relation.leader v = signOf w
  leader_congr {v w : SignedName} :
    Aliased s.pairs v w → s.relation.leader v = s.relation.leader w
  leader_negate (v : SignedName) :
    s.relation.leader v.negate = ((s.relation.leader v).1, -(s.relation.leader v).2)
  names_nodup : s.relation.canonicalNames.Nodup
  chosen (k : String) : k ∈ s.relation.canonicalNames →
    ∃ c : SignedName, c.text = k ∧ c.IsPositive ∧ c.text ∈ s.relation.classes.keys ∧
      s.relation.leader c = (c.text, 1)
  listed (v : SignedName) : (s.relation.leader v).1 ∈ s.relation.canonicalNames ↔ v ∈ s.joined

theorem sound_empty : Sound {} where
  nodup v := List.nodup_singleton v.text
  mem_aliases v k := by
    simp only [empty_iff, exists_eq_right', eq_comm]
    exact List.mem_singleton
  closed key := by simp [OrderedMap.keys] at key
  keys_canonicals v := by simp [OrderedMap.keys]
  leader_aliased v := ⟨v, .refl v, rfl⟩
  leader_congr aliased := congrArg (leader {}) (empty_iff.1 aliased)
  leader_negate v := signOf_negate v
  names_nodup := List.nodup_nil
  chosen k member := absurd member List.not_mem_nil
  listed v := by simp

section Sound

variable {s : Account} (sound : s.Sound)
include sound

theorem Sound.own (v : SignedName) : v.text ∈ s.relation.aliases v.text :=
  (sound.mem_aliases v v.text).2 ⟨v, rfl, .refl v⟩

theorem Sound.mem_either (a b : SignedName) (k : String) : k ∈ s.relation.either a b ↔
      ∃ w : SignedName, w.text = k ∧ OfEither s.pairs a b w := by
  unfold either
  rw [mem_join, sound.mem_aliases, sound.mem_aliases]
  constructor
  · rintro (⟨w, same, first⟩ | ⟨w, same, second⟩)
    · exact ⟨w, same, .inl first⟩
    · exact ⟨w, same, .inr second⟩
  · rintro ⟨w, same, first | second⟩
    · exact .inl ⟨w, same, first⟩
    · exact .inr ⟨w, same, second⟩

theorem Sound.text_mem_either (a b v : SignedName) : v.text ∈ s.relation.either a b ↔ OfEither s.pairs a b v := by
  rw [sound.mem_either]
  simp

theorem Sound.near_of_leader {v w : SignedName}
    (same : (s.relation.leader v).1 = (s.relation.leader w).1) : Near s.pairs v w := by
  obtain ⟨x, toX, leadX⟩ := sound.leader_aliased v
  obtain ⟨y, toY, leadY⟩ := sound.leader_aliased w
  rw [leadX, leadY] at same
  obtain rfl | turned := eq_or_negate_of_signOf same
  · exact .inl (toX.trans toY.symm)
  · exact .inr (toX.negated.trans (turned ▸ toY.symm))

theorem Sound.leader_near {v w : SignedName} (near : Near s.pairs v w) :
    (s.relation.leader v).1 = (s.relation.leader w).1 := by
  obtain same | turned := near
  · rw [sound.leader_congr same]
  · rw [← sound.leader_congr turned, sound.leader_negate]

theorem Sound.chosen_unique {c d : SignedName} (first : c.text ∈ s.relation.canonicalNames)
    (second : d.text ∈ s.relation.canonicalNames) (near : Near s.pairs c d) : c = d := by
  obtain ⟨x, same, _, _, leadX⟩ := sound.chosen _ first
  obtain rfl := SignedName.ext same
  obtain ⟨y, same, _, _, leadY⟩ := sound.chosen _ second
  obtain rfl := SignedName.ext same
  have lead := sound.leader_near near
  rw [leadX, leadY] at lead
  exact SignedName.ext lead

end Sound

section Add

variable {s : Account} {a b : SignedName}

variable {v w : SignedName}

theorem not_joined_negate (consistent : Consistent (insert (a, b) s.pairs)) (joined : OfEither s.pairs a b v) :
    ¬OfEither s.pairs a b v.negate := fun other =>
  consistent v ((insert_iff_of_joined consistent joined).2 other)

theorem near_insert_iff (consistent : Consistent (insert (a, b) s.pairs)) : Near (insert (a, b) s.pairs) a v ↔
      OfEither s.pairs a b v ∨ OfEither s.pairs a b v.negate := by
  have first : ∀ w, Aliased (insert (a, b) s.pairs) a w ↔ OfEither s.pairs a b w :=
    fun w => insert_iff_of_joined consistent (.inl (.refl a))
  have turned : Aliased (insert (a, b) s.pairs) a.negate v ↔
      Aliased (insert (a, b) s.pairs) a v.negate := ⟨negate_left, negate_right⟩
  unfold Near
  rw [turned, first, first]

-- What the tables have after two classes are joined: three cases for every name.
structure Joins (s : Account) (a b : SignedName) (r : AliasRelation) : Prop where
  names : r.canonicalNames =
    (join s.relation.canonicalNames [(s.relation.leader a).1]).filter (· ≠ (s.relation.leader b).1)
  inside {v : SignedName} : OfEither s.pairs a b v →
    r.classes.find? v.text = some (s.relation.either a b) ∧
    r.canonicals.find? v.text = some (s.relation.leader a)
  across {v : SignedName} : OfEither s.pairs a b v.negate →
    r.classes.find? v.text = some (s.relation.either a.negate b.negate) ∧
    r.canonicals.find? v.text = some ((s.relation.leader a).1, -(s.relation.leader a).2)
  outside {v : SignedName} : ¬OfEither s.pairs a b v →
    ¬OfEither s.pairs a b v.negate →
    r.classes.find? v.text = s.relation.classes.find? v.text ∧
    r.canonicals.find? v.text = s.relation.canonicals.find? v.text

theorem Sound.add_joins (sound : s.Sound) (consistent : Consistent (insert (a, b) s.pairs)) :
    ∃ r, add a.text b.text s.relation = .ok () r ∧ Joins s a b r := by
  obtain ⟨r, run, names, each⟩ := add_ok (a := a) (sound.own b) (fun k member => by
      obtain ⟨v, same, _⟩ := (sound.mem_either a b k).1 member
      exact ⟨v, same⟩)
    (fun k member other => by
      obtain ⟨v, rfl, joined⟩ := (sound.mem_either a b k).1 member
      exact not_joined_negate consistent joined ((sound.text_mem_either a b v.negate).1 other))
  simp only [sound.text_mem_either] at each
  exact ⟨r, run, names, fun {v} => (each v).1, fun {v} => (each v).2.1, fun {v} => (each v).2.2⟩

section Joins

variable {r : AliasRelation} (joins : Joins s a b r)
include joins

variable {v : SignedName}

theorem Joins.leader_inside (joined : OfEither s.pairs a b v) : r.leader v = s.relation.leader a := by
  simp [leader, (joins.inside joined).2]

theorem Joins.leader_across (joined : OfEither s.pairs a b v.negate) :
    r.leader v = ((s.relation.leader a).1, -(s.relation.leader a).2) := by
  simp [leader, (joins.across joined).2]

theorem Joins.leader_outside (off : ¬OfEither s.pairs a b v)
    (beyond : ¬OfEither s.pairs a b v.negate) : r.leader v = s.relation.leader v := by
  simp only [leader, (joins.outside off beyond).2]

theorem Joins.mem_keys (v : SignedName) : (v.text ∈ r.classes.keys ↔
      (OfEither s.pairs a b v ∨ OfEither s.pairs a b v.negate) ∨ v.text ∈ s.relation.classes.keys) ∧
    (v.text ∈ r.canonicals.keys ↔
      (OfEither s.pairs a b v ∨ OfEither s.pairs a b v.negate) ∨ v.text ∈ s.relation.canonicals.keys) := by
  simp only [← find?_isSome_iff]
  by_cases joined : OfEither s.pairs a b v
  · simp [joins.inside joined, joined]
  · by_cases turned : OfEither s.pairs a b v.negate
    · simp [joins.across turned, turned]
    · simp [joins.outside joined turned, joined, turned]

theorem Joins.mem_names (k : String) : k ∈ r.canonicalNames ↔
      (k ∈ s.relation.canonicalNames ∨ k = (s.relation.leader a).1) ∧ k ≠ (s.relation.leader b).1 := by
  rw [joins.names, List.mem_filter, mem_join, List.mem_singleton, decide_eq_true_iff]

end Joins

variable {r : AliasRelation}

theorem Sound.leader_eq_iff (sound : s.Sound) (consistent : Consistent (insert (a, b) s.pairs)) :
    (s.relation.leader a).1 = (s.relation.leader b).1 ↔ Aliased s.pairs a b := by
  refine ⟨fun same => ?_, fun aliased => congrArg Prod.fst (sound.leader_congr aliased)⟩
  obtain near | far := sound.near_of_leader same
  · exact near
  · exact absurd (.inl far.negate_left) (not_joined_negate consistent (.inr (.refl b)))

section

variable (joins : Joins s a b r) (sound : s.Sound)
include joins sound

theorem Joins.leader_negate (v : SignedName) :
    r.leader v.negate = ((r.leader v).1, -(r.leader v).2) := by
  by_cases joined : OfEither s.pairs a b v
  · rw [joins.leader_inside joined, joins.leader_across (v := v.negate) (by simpa using joined)]
  · by_cases turned : OfEither s.pairs a b v.negate
    · rw [joins.leader_inside turned, joins.leader_across turned]
      simp
    · rw [joins.leader_outside joined turned,
        joins.leader_outside (v := v.negate) turned (by simpa using joined), sound.leader_negate]

theorem Joins.leader_kept {c : SignedName}
    (lead : s.relation.leader c = (c.text, 1)) (other : c.text ≠ (s.relation.leader b).1) :
    r.leader c = (c.text, 1) := by
  have apart : ¬Near s.pairs b c := fun near => other (by rw [sound.leader_near near, lead])
  by_cases joined : OfEither s.pairs a b c
  · have first := joined.resolve_right fun second => apart (.inl second)
    rw [joins.leader_inside joined, sound.leader_congr first, lead]
  · by_cases turned : OfEither s.pairs a b c.negate
    · have first := turned.resolve_right fun second => apart (.inr second.negate_right)
      rw [joins.leader_across turned, sound.leader_congr first, sound.leader_negate, lead]
      simp
    · rw [joins.leader_outside joined turned, lead]

theorem Joins.chosen_spec {k : String} (member : k ∈ r.canonicalNames) :
    ∃ c : SignedName, c.text = k ∧ c.IsPositive ∧ c.text ∈ r.classes.keys ∧ r.leader c = (c.text, 1) := by
  obtain ⟨old | rfl, other⟩ := (joins.mem_names k).1 member
  · obtain ⟨c, rfl, positive, key, lead⟩ := sound.chosen k old
    exact ⟨c, rfl, positive, (joins.mem_keys c).1.2 (.inr key), joins.leader_kept sound lead other⟩
  · obtain ⟨w, toW, lead⟩ := sound.leader_aliased a
    rw [lead]
    by_cases positive : w.IsPositive
    · have joined : OfEither s.pairs a b w := .inl toW
      rw [signOf_of_positive positive] at lead ⊢
      exact ⟨w, rfl, positive, (joins.mem_keys w).1.2 (.inl (.inl joined)), (joins.leader_inside joined).trans lead⟩
    · have turned : OfEither s.pairs a b w.negate.negate := .inl (by simpa using toW)
      have shown : signOf w = (w.negate.text, -1) := by simp [signOf, positive]
      rw [shown] at lead ⊢
      refine ⟨w.negate, rfl, by simpa using positive, (joins.mem_keys w.negate).1.2 (.inl (.inr turned)), ?_⟩
      rw [joins.leader_across turned, lead]
      simp

variable (consistent : Consistent (insert (a, b) s.pairs))
include consistent

theorem Joins.aliases_spec (v : SignedName) : (r.aliases v.text).Nodup ∧
      ∀ k, k ∈ r.aliases v.text ↔ ∃ w : SignedName, w.text = k ∧ Aliased (insert (a, b) s.pairs) v w := by
  unfold aliases
  by_cases joined : OfEither s.pairs a b v
  · rw [(joins.inside joined).1]
    refine ⟨nodup_join _ (sound.nodup a), fun k => ?_⟩
    simp only [insert_iff_of_joined consistent joined]
    exact sound.mem_either a b k
  · by_cases turned : OfEither s.pairs a b v.negate
    · rw [(joins.across turned).1]
      refine ⟨nodup_join _ (sound.nodup a.negate), fun k => (sound.mem_either _ _ k).trans ?_⟩
      -- the aliases of a name are the negatives of the aliases of its negative
      have mirrored : ∀ w, Aliased (insert (a, b) s.pairs) v w ↔ OfEither s.pairs a.negate b.negate w := by
        intro w
        have back : Aliased (insert (a, b) s.pairs) v w ↔ Aliased (insert (a, b) s.pairs) v.negate w.negate :=
          ⟨.negated, fun aliased => by simpa using aliased.negated⟩
        rw [back, insert_iff_of_joined consistent turned]
        exact ⟨Or.imp negate_right negate_right, Or.imp negate_left negate_left⟩
      simp only [mirrored]
    · rw [(joins.outside joined turned).1]
      refine ⟨sound.nodup v, fun k => ?_⟩
      simp only [insert_iff_of_outside consistent joined turned]
      exact sound.mem_aliases v k

theorem Joins.mem_keys_of_near (key : v.text ∈ r.classes.keys)
    (near : Near (insert (a, b) s.pairs) v w) : w.text ∈ r.classes.keys := by
  rw [(joins.mem_keys _).1, ← near_insert_iff consistent] at key ⊢
  by_cases inside : Near (insert (a, b) s.pairs) a v
  · exact .inl (inside.trans near)
  · right
    obtain ⟨joined, turned⟩ := not_or.1 (mt (near_insert_iff consistent).2 inside)
    have same : Near s.pairs v w := by
      refine near.imp (insert_iff_of_outside consistent joined turned).1 ?_
      exact (insert_iff_of_outside consistent turned (by simpa using joined)).1
    exact sound.closed (key.resolve_left inside) same

theorem Joins.leader_spec (v : SignedName) : ∃ w, Aliased (insert (a, b) s.pairs) v w ∧ r.leader v = signOf w := by
  obtain ⟨c, toC, leadC⟩ := sound.leader_aliased a
  by_cases joined : OfEither s.pairs a b v
  · exact ⟨c, (insert_iff_of_joined consistent joined).2 (.inl toC), (joins.leader_inside joined).trans leadC⟩
  · by_cases turned : OfEither s.pairs a b v.negate
    · refine ⟨c.negate, ?_, ?_⟩
      · exact negate_left ((insert_iff_of_joined consistent turned).2 (.inl toC))
      · rw [joins.leader_across turned, leadC, signOf_negate]
    · obtain ⟨w, toW, leadW⟩ := sound.leader_aliased v
      exact ⟨w, (insert_iff_of_outside consistent joined turned).2 toW,
        (joins.leader_outside joined turned).trans leadW⟩

theorem Joins.leader_congr (aliased : Aliased (insert (a, b) s.pairs) v w) : r.leader v = r.leader w := by
  by_cases joined : OfEither s.pairs a b v
  · rw [joins.leader_inside joined, joins.leader_inside ((insert_iff_of_joined consistent joined).1 aliased)]
  · by_cases turned : OfEither s.pairs a b v.negate
    · rw [joins.leader_across turned, joins.leader_across ((insert_iff_of_joined consistent turned).1 aliased.negated)]
    · have old := (insert_iff_of_outside consistent joined turned).1 aliased
      have joined' : ¬OfEither s.pairs a b w := mt (Or.imp (·.trans old.symm) (·.trans old.symm)) joined
      have turned' : ¬OfEither s.pairs a b w.negate :=
        mt (Or.imp (·.trans old.negated.symm) (·.trans old.negated.symm)) turned
      rw [joins.leader_outside joined turned, joins.leader_outside joined' turned', sound.leader_congr old]

theorem Joins.listed_spec (v : SignedName) :
    (r.leader v).1 ∈ r.canonicalNames ↔ Near (insert (a, b) s.pairs) a v ∧ ¬Aliased s.pairs a b ∨
        ¬Near (insert (a, b) s.pairs) a v ∧ v ∈ s.joined := by
  rw [joins.mem_names, near_insert_iff consistent]
  by_cases joined : OfEither s.pairs a b v
  · rw [joins.leader_inside joined, Ne, sound.leader_eq_iff consistent]
    simp [joined]
  · by_cases turned : OfEither s.pairs a b v.negate
    · rw [joins.leader_across turned, Ne, sound.leader_eq_iff consistent]
      simp [turned]
    · -- the leading names of the two joined classes are not the one of a third class
      have apartA : (s.relation.leader v).1 ≠ (s.relation.leader a).1 := fun same => by
        obtain near | far := (sound.near_of_leader same).symm
        · exact joined (.inl near)
        · exact turned (.inl far.negate_left)
      have apartB : (s.relation.leader v).1 ≠ (s.relation.leader b).1 := fun same => by
        obtain near | far := (sound.near_of_leader same).symm
        · exact joined (.inr near)
        · exact turned (.inr far.negate_left)
      rw [joins.leader_outside joined turned, sound.listed]
      simp [joined, turned, apartA, apartB]

end

theorem Sound.add (sound : s.Sound) (consistent : Consistent (insert (a, b) s.pairs)) :
    (AliasStep.add a b).perform s.relation = .ok () (s.after (.add a b)).relation ∧ (s.after (.add a b)).Sound := by
  obtain ⟨r, run, joins⟩ := sound.add_joins consistent
  have left : leftBy (AliasStep.add a b).perform s.relation = r := leftBy_of_ok run
  simp only [after, left]
  refine ⟨run, ?_⟩
  exact {
    nodup := fun v => (joins.aliases_spec sound consistent v).1
    mem_aliases := fun v => (joins.aliases_spec sound consistent v).2
    closed := joins.mem_keys_of_near sound consistent
    keys_canonicals := fun v => by
      rw [(joins.mem_keys _).2, (joins.mem_keys _).1, sound.keys_canonicals]
    leader_aliased := joins.leader_spec sound consistent
    leader_congr := joins.leader_congr sound consistent
    leader_negate := joins.leader_negate sound
    names_nodup := by
      rw [joins.names]
      exact (nodup_join _ sound.names_nodup).filter _
    chosen := fun k => joins.chosen_spec sound
    listed := joins.listed_spec sound consistent }

end Add

section Remove

variable {s : Account} {c : SignedName}

structure Forgets (s : Account) (c : SignedName) (r : AliasRelation) : Prop where
  names : r.canonicalNames = s.relation.canonicalNames.filter (· ≠ c.text)
  inside {v : SignedName} : Near s.pairs c v →
    r.classes.find? v.text = none ∧ r.canonicals.find? v.text = none
  outside {v : SignedName} : ¬Near s.pairs c v →
    r.classes.find? v.text = s.relation.classes.find? v.text ∧
    r.canonicals.find? v.text = s.relation.canonicals.find? v.text

theorem Sound.remove_forgets (sound : s.Sound) (known : c.text ∈ s.relation.canonicalNames) :
    ∃ r, remove c.text s.relation = .ok () r ∧ Forgets s c r := by
  obtain ⟨d, same, _, key, _⟩ := sound.chosen _ known
  obtain rfl := SignedName.ext same
  have near : ∀ k, k ∈ s.relation.either d d.negate ↔
      ∃ v : SignedName, v.text = k ∧ Near s.pairs d v := sound.mem_either d d.negate
  have first : ∀ k ∈ s.relation.either d d.negate, k ∈ s.relation.classes.keys := by
    intro k member
    obtain ⟨v, rfl, near⟩ := (near k).1 member
    exact sound.closed key near
  have second : ∀ k ∈ s.relation.either d d.negate, k ∈ s.relation.canonicals.keys := by
    intro k member
    obtain ⟨v, rfl, _⟩ := (near k).1 member
    exact (sound.keys_canonicals v).2 (first _ member)
  have run := remove_ok known (sound.nodup d) key (sound.closed key (Near.refl d).negate) first second
  have member : ∀ v : SignedName, v.text ∈ s.relation.either d d.negate ↔ Near s.pairs d v :=
    sound.text_mem_either d d.negate
  refine ⟨_, run, rfl, fun {v} inside => ?_, fun {v} outside => ?_⟩
  · simp only [find?_eraseAll, (member v).2 inside, if_true, and_self]
  · simp only [find?_eraseAll, mt (member v).1 outside, if_false, and_self]

section Forgets

variable {r : AliasRelation} (forgets : Forgets s c r)
include forgets

variable {v w : SignedName}

theorem Forgets.leader_inside (inside : Near s.pairs c v) : r.leader v = signOf v := by
  simp [leader, (forgets.inside inside).2]

theorem Forgets.leader_outside (outside : ¬Near s.pairs c v) : r.leader v = s.relation.leader v := by
  simp only [leader, (forgets.outside outside).2]

theorem Forgets.mem_keys (v : SignedName) :
    (v.text ∈ r.classes.keys ↔ ¬Near s.pairs c v ∧ v.text ∈ s.relation.classes.keys) ∧
      (v.text ∈ r.canonicals.keys ↔ ¬Near s.pairs c v ∧ v.text ∈ s.relation.canonicals.keys) := by
  simp only [← find?_isSome_iff]
  by_cases near : Near s.pairs c v
  · simp [forgets.inside near, near]
  · simp [forgets.outside near, near]

theorem Forgets.mem_names (k : String) : k ∈ r.canonicalNames ↔ k ∈ s.relation.canonicalNames ∧ k ≠ c.text := by
  rw [forgets.names, List.mem_filter, decide_eq_true_iff]

section

variable (sound : s.Sound)
include sound

theorem Forgets.aliases_spec (v : SignedName) : (r.aliases v.text).Nodup ∧
      ∀ k, k ∈ r.aliases v.text ↔ ∃ w : SignedName, w.text = k ∧ Aliased (without s.pairs c) v w := by
  unfold aliases
  by_cases near : Near s.pairs c v
  · rw [(forgets.inside near).1]
    refine ⟨List.nodup_singleton _, fun k => ?_⟩
    simp [without_iff, near, eq_comm]
  · rw [(forgets.outside near).1]
    refine ⟨sound.nodup v, fun k => (sound.mem_aliases v k).trans ?_⟩
    have same : ∀ w, Aliased (without s.pairs c) v w ↔ Aliased s.pairs v w := fun w =>
      ⟨of_without, fun aliased => without_iff.2 (.inr ⟨aliased, near⟩)⟩
    simp only [same]

theorem Forgets.mem_keys_of_near (key : v.text ∈ r.classes.keys)
    (near : Near (without s.pairs c) v w) : w.text ∈ r.classes.keys := by
  rw [(forgets.mem_keys _).1] at key ⊢
  have old : Near s.pairs v w := near.imp of_without of_without
  exact ⟨fun other => key.1 (other.trans old.symm), sound.closed key.2 old⟩

theorem Forgets.leader_spec (v : SignedName) : ∃ w, Aliased (without s.pairs c) v w ∧ r.leader v = signOf w := by
  by_cases near : Near s.pairs c v
  · exact ⟨v, .refl v, forgets.leader_inside near⟩
  · obtain ⟨w, toW, lead⟩ := sound.leader_aliased v
    exact ⟨w, without_iff.2 (.inr ⟨toW, near⟩), (forgets.leader_outside near).trans lead⟩

theorem Forgets.leader_congr (aliased : Aliased (without s.pairs c) v w) : r.leader v = r.leader w := by
  obtain rfl | ⟨old, outside⟩ := without_iff.1 aliased
  · rfl
  · rw [forgets.leader_outside outside, forgets.leader_outside fun near => outside (near.onward old.symm),
      sound.leader_congr old]

theorem Forgets.leader_negate (v : SignedName) : r.leader v.negate = ((r.leader v).1, -(r.leader v).2) := by
  by_cases near : Near s.pairs c v
  · rw [forgets.leader_inside near, forgets.leader_inside near.negate, signOf_negate]
  · rw [forgets.leader_outside near,
      forgets.leader_outside fun other => near (by simpa using other.negate), sound.leader_negate]

theorem Forgets.chosen_spec (known : c.text ∈ s.relation.canonicalNames) {k : String} (member : k ∈ r.canonicalNames) :
    ∃ d : SignedName, d.text = k ∧ d.IsPositive ∧ d.text ∈ r.classes.keys ∧ r.leader d = (d.text, 1) := by
  obtain ⟨old, other⟩ := (forgets.mem_names k).1 member
  obtain ⟨d, rfl, positive, key, lead⟩ := sound.chosen k old
  have outside : ¬Near s.pairs c d := fun near =>
    other (congrArg SignedName.text (sound.chosen_unique known old near).symm)
  exact ⟨d, rfl, positive, (forgets.mem_keys d).1.2 ⟨outside, key⟩, (forgets.leader_outside outside).trans lead⟩

theorem Forgets.listed_spec (known : c.text ∈ s.relation.canonicalNames) (v : SignedName) :
    (r.leader v).1 ∈ r.canonicalNames ↔ v ∈ s.joined ∧ ¬Near s.pairs c v := by
  obtain ⟨e, same, positive, _, lead⟩ := sound.chosen _ known
  obtain rfl := SignedName.ext same
  rw [forgets.mem_names]
  by_cases near : Near s.pairs e v
  · refine ⟨fun ⟨old, other⟩ => ?_, fun ⟨_, outside⟩ => absurd near outside⟩
    -- a canonical name of the class is the one that goes
    rw [forgets.leader_inside near] at old other
    obtain ⟨d, same, positive', _, _⟩ := sound.chosen _ old
    rw [← same] at old other
    have form : (signOf d).1 = (signOf v).1 := by rw [signOf_of_positive positive', same]
    have close : Near s.pairs e d := by
      obtain rfl | turned := eq_or_negate_of_signOf form
      · exact near
      · have back : d = v.negate := by rw [← turned, SignedName.negate_negate]
        exact back ▸ near.negate
    exact absurd (congrArg SignedName.text (sound.chosen_unique known old close).symm) other
  · have apart : (s.relation.leader v).1 ≠ e.text := fun same => near (sound.near_of_leader (by rw [lead, same]))
    rw [forgets.leader_outside near, sound.listed]
    simp [near, apart]

end

end Forgets

theorem Sound.remove (sound : s.Sound) :
    (AliasStep.remove c).perform s.relation = .ok () (s.after (.remove c)).relation ∧ (s.after (.remove c)).Sound := by
  by_cases known : c.text ∈ s.relation.canonicalNames
  · obtain ⟨r, run, forgets⟩ := sound.remove_forgets known
    have left : leftBy (AliasStep.remove c).perform s.relation = r := leftBy_of_ok run
    simp only [after, left, known, true_imp_iff]
    refine ⟨run, ?_⟩
    exact {
      nodup := fun v => (forgets.aliases_spec sound v).1
      mem_aliases := fun v => (forgets.aliases_spec sound v).2
      closed := forgets.mem_keys_of_near sound
      keys_canonicals := fun v => by
        rw [(forgets.mem_keys _).2, (forgets.mem_keys _).1, sound.keys_canonicals]
      leader_aliased := forgets.leader_spec sound
      leader_congr := forgets.leader_congr sound
      leader_negate := forgets.leader_negate sound
      names_nodup := by
        rw [forgets.names]
        exact sound.names_nodup.filter _
      chosen := fun k => forgets.chosen_spec sound known
      listed := forgets.listed_spec sound known }
  · have run := remove_other known
    have left : leftBy (AliasStep.remove c).perform s.relation = s.relation := leftBy_of_ok run
    have same : s.after (.remove c) = s := by simp [after, left, known]
    rw [same]
    exact ⟨run, sound⟩

end Remove

theorem Peaceful.of_prefix {done steps : List AliasStep} (peaceful : Peaceful steps)
    (part : done <+: steps) : Peaceful done :=
  fun first before => peaceful first (before.trans part)

theorem sound_ofRun (steps : List AliasStep) (peaceful : Peaceful steps) :
    AliasStep.performAll steps {} = .ok () (ofRun steps).relation ∧ (ofRun steps).Sound := by
  induction steps using List.reverseRecOn with
  | nil => exact ⟨rfl, sound_empty⟩
  | append_singleton steps step ih =>
    obtain ⟨run, sound⟩ := ih (peaceful.of_prefix (List.prefix_append steps [step]))
    have consistent := peaceful _ (List.prefix_refl _)
    rw [ofRun_concat] at consistent ⊢
    have last : step.perform (ofRun steps).relation = .ok () ((ofRun steps).after step).relation ∧
        ((ofRun steps).after step).Sound := by
      cases step with
      | add a b => exact sound.add consistent
      | remove c => exact sound.remove
    refine ⟨?_, last.2⟩
    unfold AliasStep.performAll at run ⊢
    rw [List.forM_append, bind_ok run, List.forM_cons, bind_ok last.1]
    rfl

def signBy (negative : String → Bool) (v : SignedName) : Int :=
  if negative (signOf v).1 then -(signOf v).2 else (signOf v).2

theorem signBy_negate (negative : String → Bool) (v : SignedName) : signBy negative v.negate = -signBy negative v := by
  by_cases turned : negative (signOf v).1 = true <;> simp [signBy, turned]

theorem signBy_ne_zero (negative : String → Bool) (v : SignedName) : signBy negative v ≠ 0 := by
  have unit : (signOf v).2 ≠ 0 := by by_cases positive : v.IsPositive <;> simp [signOf, positive]
  by_cases turned : negative (signOf v).1 = true <;> simp [signBy, turned, unit]

theorem consistent_of_signs {pairs : Set AliasPair} (negative : String → Bool)
    (respects : ∀ p ∈ pairs, signBy negative p.1 = signBy negative p.2) : Consistent pairs := by
  intro v aliased
  have same : signBy negative v = signBy negative v.negate :=
    aliased.closed (r := fun v w => signBy negative v = signBy negative w)
      ⟨fun _ => rfl, .symm, .trans⟩ (fun v w same => by simp [signBy_negate, same]) respects
  have odd := signBy_negate negative v
  have nonzero := signBy_ne_zero negative v
  omega

theorem add_mem_of_mem_pairs (steps : List AliasStep) (p : AliasPair)
    (member : p ∈ (ofRun steps).pairs) : .add p.1 p.2 ∈ steps := by
  induction steps using List.reverseRecOn with
  | nil => exact absurd member (Set.notMem_empty p)
  | append_singleton steps step ih =>
    rw [ofRun_concat] at member
    rw [List.mem_append, List.mem_singleton]
    cases step with
    | add a b =>
      obtain rfl | old := member
      · exact .inr rfl
      · exact .inl (ih old)
    | remove c => exact .inl (ih member.1)

theorem peaceful_of_signs (steps : List AliasStep) (negative : String → Bool)
    (respects : ∀ a b, .add a b ∈ steps → signBy negative a = signBy negative b) : Peaceful steps := by
  intro done part
  refine consistent_of_signs negative fun p member => ?_
  exact respects p.1 p.2 (part.subset (add_mem_of_mem_pairs done p member))

-- After every part of a run the aliases of a name are its class in the relation that the pairs generate, each
-- once.
theorem aliases_eq_class_of_run (steps : List AliasStep) (peaceful : Peaceful steps)
    (done : List AliasStep) (part : done <+: steps) :
    AliasStep.performAll done {} = .ok () (ofRun done).relation ∧
      ∀ v : SignedName, ((ofRun done).relation.aliases v.text).Nodup ∧
        ∀ k, k ∈ (ofRun done).relation.aliases v.text ↔
          ∃ w : SignedName, w.text = k ∧ Aliased (ofRun done).pairs v w := by
  obtain ⟨run, sound⟩ := sound_ofRun done (peaceful.of_prefix part)
  exact ⟨run, fun v => ⟨sound.nodup v, sound.mem_aliases v⟩⟩

def forgottenRun : List AliasStep :=
  [.add ⟨"a", by decide⟩ ⟨"b", by decide⟩, .add ⟨"c", by decide⟩ ⟨"-b", by decide⟩,
    .remove ⟨"c", by decide⟩, .add ⟨"c", by decide⟩ ⟨"d", by decide⟩]

theorem peaceful_forgottenRun : Peaceful forgottenRun := by
  refine peaceful_of_signs forgottenRun (fun name => name = "c" || name = "d") ?_
  intro a b member
  simp only [forgottenRun, List.mem_cons, AliasStep.add.injEq, reduceCtorEq, false_or,
    List.not_mem_nil, or_false] at member
  obtain ⟨rfl, rfl⟩ | ⟨rfl, rfl⟩ | ⟨rfl, rfl⟩ := member <;> decide +kernel

theorem aliases_after_forgottenRun :
    Peaceful forgottenRun ∧
      AliasStep.performAll forgottenRun {} = .ok () (ofRun forgottenRun).relation ∧
      ∀ k, k ∈ (ofRun forgottenRun).relation.aliases "c" ↔
        ∃ w : SignedName, w.text = k ∧ Aliased (ofRun forgottenRun).pairs ⟨"c", by decide⟩ w := by
  obtain ⟨run, classes⟩ := aliases_eq_class_of_run forgottenRun peaceful_forgottenRun forgottenRun
    (List.prefix_refl _)
  exact ⟨peaceful_forgottenRun, run, (classes ⟨"c", by decide⟩).2⟩

end Account

end Modelica
