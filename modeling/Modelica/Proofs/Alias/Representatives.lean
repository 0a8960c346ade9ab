import Modelica.Proofs.Alias.Run

set_option autoImplicit false

namespace Modelica

open AliasRelation

namespace Account

open Aliased

def Covers (g : String × List String) (v : SignedName) : Prop := v.text ∈ g.1 :: g.2

def Irredundant (steps : List AliasStep) : Prop :=
  ∀ done a b, done ++ [.add a b] <+: steps → ¬Aliased (ofRun done).pairs a b

theorem Irredundant.of_prefix {done steps : List AliasStep} (irredundant : Irredundant steps)
    (part : done <+: steps) : Irredundant done :=
  fun first a b before => irredundant first a b (before.trans part)

section Groups

variable {s : Account} (sound : s.Sound)
include sound

theorem Sound.mem_groups_iff (g : String × List String) : g ∈ s.relation.groups ↔
      ∃ c : SignedName, c.text ∈ s.relation.canonicalNames ∧
        g = (c.text, (s.relation.aliases c.text).filter (· ≠ c.text)) := by
  unfold groups
  rw [List.mem_map]
  constructor
  · rintro ⟨k, member, rfl⟩
    obtain ⟨c, rfl, _⟩ := sound.chosen k member
    exact ⟨c, member, rfl⟩
  · rintro ⟨c, member, rfl⟩
    exact ⟨c.text, member, rfl⟩

theorem Sound.covers_iff (c v : SignedName) :
    Covers (c.text, (s.relation.aliases c.text).filter (· ≠ c.text)) v ↔ Aliased s.pairs c v := by
  unfold Covers
  rw [List.mem_cons, List.mem_filter, sound.mem_aliases]
  by_cases same : v = c
  · simp [same, Aliased.refl]
  · simp [same]

theorem Sound.exists_chosen {v : SignedName} (member : v ∈ s.joined) :
    ∃ c : SignedName, c.text ∈ s.relation.canonicalNames ∧ Near s.pairs c v := by
  have listed := (sound.listed v).2 member
  obtain ⟨c, same, _, _, lead⟩ := sound.chosen _ listed
  refine ⟨c, same ▸ listed, sound.near_of_leader ?_⟩
  rw [lead, same]

theorem Sound.mem_joined_of_near {c v : SignedName} (known : c.text ∈ s.relation.canonicalNames)
    (near : Near s.pairs c v) : v ∈ s.joined := by
  obtain ⟨d, same, _, _, lead⟩ := sound.chosen _ known
  obtain rfl := SignedName.ext same
  rw [← sound.listed, ← sound.leader_near near, lead]
  exact known

end Groups

theorem near_iff_covers {s : Account} (sound : s.Sound) (c v : SignedName) : Near s.pairs c v ↔
      Covers (c.text, (s.relation.aliases c.text).filter (· ≠ c.text)) v ∨
        Covers (c.text, (s.relation.aliases c.text).filter (· ≠ c.text)) v.negate := by
  rw [sound.covers_iff, sound.covers_iff]
  exact or_congr_right ⟨negate_left, negate_right⟩

def Accompanied (pairs : Set AliasPair) (v : SignedName) : Prop := ∃ w, w ≠ v ∧ Aliased pairs v w

theorem accompanied_negate {pairs : Set AliasPair} {v : SignedName}
    (accompanied : Accompanied pairs v.negate) : Accompanied pairs v := by
  obtain ⟨w, other, aliased⟩ := accompanied
  refine ⟨w.negate, fun same => other ?_, aliased.negate_left⟩
  rw [← same, SignedName.negate_negate]

theorem accompanied_joined {pairs : Set AliasPair} {a b v : SignedName}
    (consistent : Consistent (insert (a, b) pairs)) (different : a ≠ b)
    (joined : OfEither pairs a b v) : Accompanied (insert (a, b) pairs) v := by
  by_cases first : v = a
  · exact ⟨b, fun same => different (first ▸ same.symm), (insert_iff_of_joined consistent joined).2 (.inr (.refl b))⟩
  · exact ⟨a, Ne.symm first, (insert_iff_of_joined consistent joined).2 (.inl (.refl a))⟩

theorem mem_joined_iff_of_irredundant (steps : List AliasStep) (peaceful : Peaceful steps)
    (irredundant : Irredundant steps) (v : SignedName) :
    v ∈ (ofRun steps).joined ↔ Accompanied (ofRun steps).pairs v := by
  induction steps using List.reverseRecOn with
  | nil =>
    refine ⟨fun member => absurd member (Set.notMem_empty v), ?_⟩
    rintro ⟨w, other, aliased⟩
    exact absurd (empty_iff.1 aliased).symm other
  | append_singleton steps step ih =>
    have part := List.prefix_append steps [step]
    have consistent := peaceful _ (List.prefix_refl _)
    have old := ih (peaceful.of_prefix part) (irredundant.of_prefix part)
    rw [ofRun_concat] at consistent ⊢
    cases step with
    | add a b =>
      have new := irredundant steps a b (List.prefix_refl _)
      have different : a ≠ b := fun same => new (same ▸ .refl a)
      simp only [after, Set.mem_ofPred_eq, near_insert_iff consistent, new, not_false_eq_true, and_true]
      by_cases joined : OfEither (ofRun steps).pairs a b v
      · simp [joined, accompanied_joined consistent different joined]
      · by_cases turned : OfEither (ofRun steps).pairs a b v.negate
        · simp [turned, accompanied_negate (accompanied_joined consistent different turned)]
        · simp [joined, turned, old, Accompanied, insert_iff_of_outside consistent joined turned]
    | remove c =>
      by_cases known : c.text ∈ (ofRun steps).relation.canonicalNames
      · have rest : ((ofRun steps).after (.remove c)).pairs = without (ofRun steps).pairs c := by
          simp [after, known, without]
        rw [rest]
        simp only [after, Set.mem_ofPred_eq, known, true_imp_iff, old, Accompanied, without_iff]
        by_cases near : Near (ofRun steps).pairs c v
        · simp [near, eq_comm]
        · simp only [near, not_false_eq_true, and_true]
          refine exists_congr fun w => and_congr_right fun other => ?_
          simp [other.symm]
      · simp [after, known, old]

section Listing

variable {s : Account} (sound : s.Sound) (consistent : Consistent s.pairs)
include sound

variable {g : String × List String} {v : SignedName}

theorem Sound.group_spec (member : g ∈ s.relation.groups) : ∃ c : SignedName, c.IsPositive ∧ c.text = g.1 ∧ g.2.Nodup ∧
      ∀ v : SignedName, v.text ∈ g.2 ↔ v ≠ c ∧ Aliased s.pairs c v := by
  obtain ⟨c, known, rfl⟩ := (sound.mem_groups_iff g).1 member
  obtain ⟨d, same, positive, _⟩ := sound.chosen _ known
  obtain rfl := SignedName.ext same
  refine ⟨d, positive, rfl, (sound.nodup d).filter _, fun v => ?_⟩
  simp [List.mem_filter, sound.mem_aliases, and_comm]

include consistent in
theorem Sound.covered_once (member : v ∈ s.joined) : ∃! g, g ∈ s.relation.groups ∧
      (Covers g v ∧ ¬Covers g v.negate ∨ Covers g v.negate ∧ ¬Covers g v) := by
  obtain ⟨c, known, near⟩ := sound.exists_chosen member
  have listed := (sound.mem_groups_iff _).2 ⟨c, known, rfl⟩
  refine ⟨_, ⟨listed, ?_⟩, ?_⟩
  · rw [sound.covers_iff, sound.covers_iff]
    -- both signs in one class would make the name an alias of its negative
    have once : ¬(Aliased s.pairs c v ∧ Aliased s.pairs c v.negate) := fun both =>
      consistent v (both.1.symm.trans both.2)
    obtain same | turned := near
    · exact .inl ⟨same, fun other => once ⟨same, other⟩⟩
    · exact .inr ⟨turned.negate_left, fun other => once ⟨other, turned.negate_left⟩⟩
  · rintro g ⟨other, covers⟩
    obtain ⟨d, known', rfl⟩ := (sound.mem_groups_iff g).1 other
    have close := (near_iff_covers sound d v).2 (covers.imp And.left And.left)
    rw [sound.chosen_unique known known' (near.trans close.symm)]

theorem Sound.not_covered (outside : v ∉ s.joined) (member : g ∈ s.relation.groups) :
    ¬Covers g v ∧ ¬Covers g v.negate := by
  obtain ⟨c, known, rfl⟩ := (sound.mem_groups_iff g).1 member
  refine not_or.1 fun covers => outside ?_
  exact sound.mem_joined_of_near known ((near_iff_covers sound c v).2 covers)

end Listing

-- Every group is one class under its positive canonical name. A name is in one group with one sign if the last
-- pair of its class was new when it came, and otherwise in none. If all pairs were new, these are the names
-- that have aliases.
theorem groups_cover_joined_once (steps : List AliasStep) (peaceful : Peaceful steps) :
    (ofRun steps).relation.canonicalNames.Nodup ∧
    (∀ g ∈ (ofRun steps).relation.groups, ∃ c : SignedName, c.IsPositive ∧ c.text = g.1 ∧
      g.2.Nodup ∧ ∀ v : SignedName, v.text ∈ g.2 ↔ v ≠ c ∧ Aliased (ofRun steps).pairs c v) ∧
    (∀ v ∈ (ofRun steps).joined, ∃! g, g ∈ (ofRun steps).relation.groups ∧
      (Covers g v ∧ ¬Covers g v.negate ∨ Covers g v.negate ∧ ¬Covers g v)) ∧
    (∀ v ∉ (ofRun steps).joined, ∀ g ∈ (ofRun steps).relation.groups,
      ¬Covers g v ∧ ¬Covers g v.negate) ∧
    (Irredundant steps → ∀ v, v ∈ (ofRun steps).joined ↔ Accompanied (ofRun steps).pairs v) := by
  obtain ⟨-, sound⟩ := sound_ofRun steps peaceful
  have consistent := peaceful steps (List.prefix_refl _)
  refine ⟨sound.names_nodup, ?_, ?_, ?_, mem_joined_iff_of_irredundant steps peaceful⟩
  · exact fun g => sound.group_spec
  · exact fun v => sound.covered_once consistent
  · exact fun v outside g => sound.not_covered outside

theorem covered_after_forgottenRun :
    Peaceful forgottenRun ∧ ∃! g, g ∈ (ofRun forgottenRun).relation.groups ∧
      (Covers g ⟨"-d", by decide⟩ ∧ ¬Covers g (SignedName.negate ⟨"-d", by decide⟩) ∨
        Covers g (SignedName.negate ⟨"-d", by decide⟩) ∧ ¬Covers g ⟨"-d", by decide⟩) := by
  obtain ⟨-, sound⟩ := sound_ofRun forgottenRun peaceful_forgottenRun
  have joined : (⟨"-d", by decide⟩ : SignedName) ∈ (ofRun forgottenRun).joined :=
    (sound.listed _).1 (by decide +kernel)
  exact ⟨peaceful_forgottenRun,
    (groups_cover_joined_once forgottenRun peaceful_forgottenRun).2.2.1 _ joined⟩

section Leading

variable {s : Account} (sound : s.Sound)
include sound

theorem Sound.leader_eq_iff_aliased (v w : SignedName) :
    s.relation.leader v = s.relation.leader w ↔ Aliased s.pairs v w := by
  refine ⟨fun same => ?_, sound.leader_congr⟩
  obtain ⟨x, toX, leadX⟩ := sound.leader_aliased v
  obtain ⟨y, toY, leadY⟩ := sound.leader_aliased w
  rw [leadX, leadY] at same
  obtain rfl | rfl := eq_or_negate_of_signOf (congrArg Prod.fst same)
  · exact toX.trans toY.symm
  · -- a name and its negative differ in the sign
    by_cases positive : x.IsPositive <;> simp [signOf, positive] at same

theorem Sound.exists_leading (v : SignedName) :
    ∃ (c : SignedName) (sign : Int), c.IsPositive ∧ s.relation.leader v = (c.text, sign) ∧
      s.relation.leader c = (c.text, 1) ∧
      (sign = 1 ∧ Aliased s.pairs v c ∨ sign = -1 ∧ Aliased s.pairs v c.negate) := by
  obtain ⟨w, toW, lead⟩ := sound.leader_aliased v
  have own := (sound.leader_congr toW).symm.trans lead
  by_cases positive : w.IsPositive
  · rw [signOf_of_positive positive] at lead own
    exact ⟨w, 1, positive, lead, own, .inl ⟨rfl, toW⟩⟩
  · have shown : signOf w = (w.negate.text, -1) := by simp [signOf, positive]
    rw [shown] at lead own
    refine ⟨w.negate, -1, by simpa using positive, lead, ?_, .inr ⟨rfl, by simpa using toW⟩⟩
    rw [sound.leader_negate, own]
    rfl

theorem Sound.leader_after_add {a b v : SignedName} (consistent : Consistent (insert (a, b) s.pairs))
    (aliased : Aliased (insert (a, b) s.pairs) a v) : (s.after (.add a b)).relation.leader v = s.relation.leader a := by
  obtain ⟨r, run, joins⟩ := sound.add_joins consistent
  have left : (s.after (.add a b)).relation = r := leftBy_of_ok run
  rw [left, ← joins.leader_congr sound consistent aliased, joins.leader_inside (.inl (.refl a))]

end Leading

-- Names have the same canonical name and sign exactly if they are aliases. The negative of a name has the other
-- sign, a canonical name leads itself, and with the sign it is an alias of the name that it leads. A pair that
-- is added leaves the canonical name of its first name to the whole class.
theorem canonicalSigned_of_run (steps : List AliasStep) (peaceful : Peaceful steps) :
    AliasStep.performAll steps {} = .ok () (ofRun steps).relation ∧
    (∀ v w : SignedName,
      (ofRun steps).relation.canonicalSigned v.text = (ofRun steps).relation.canonicalSigned w.text ↔
        w.text ∈ (ofRun steps).relation.aliases v.text) ∧
    (∀ v : SignedName, ∃ (c : SignedName) (sign : Int), c.IsPositive ∧
      (ofRun steps).relation.canonicalSigned v.text = .ok (c.text, sign) ∧
      (ofRun steps).relation.canonicalSigned v.negate.text = .ok (c.text, -sign) ∧
      (ofRun steps).relation.canonicalSigned c.text = .ok (c.text, 1) ∧
      (sign = 1 ∧ c.text ∈ (ofRun steps).relation.aliases v.text ∨
        sign = -1 ∧ c.negate.text ∈ (ofRun steps).relation.aliases v.text)) ∧
    ∀ done a b, done ++ [.add a b] <+: steps → ∀ v : SignedName,
      v.text ∈ (ofRun (done ++ [.add a b])).relation.aliases a.text →
      (ofRun (done ++ [.add a b])).relation.canonicalSigned v.text =
        (ofRun done).relation.canonicalSigned a.text := by
  obtain ⟨run, sound⟩ := sound_ofRun steps peaceful
  have alias_iff : ∀ v w : SignedName,
      w.text ∈ (ofRun steps).relation.aliases v.text ↔ Aliased (ofRun steps).pairs v w := by
    intro v w
    simp [sound.mem_aliases]
  refine ⟨run, fun v w => ?_, fun v => ?_, fun done a b part v member => ?_⟩
  · rw [canonicalSigned_text, canonicalSigned_text, Except.ok.injEq, alias_iff,
      sound.leader_eq_iff_aliased]
  · obtain ⟨c, sign, positive, lead, own, signed⟩ := sound.exists_leading v
    refine ⟨c, sign, positive, ?_, ?_, ?_, by simpa only [alias_iff] using signed⟩ <;>
      simp only [canonicalSigned_text, sound.leader_negate, lead, own]
  · have shorter : done <+: steps := (List.prefix_append done _).trans part
    have before := (sound_ofRun done (peaceful.of_prefix shorter)).2
    have after := (sound_ofRun _ (peaceful.of_prefix part)).2
    have consistent := peaceful _ part
    rw [ofRun_concat] at member after consistent ⊢
    have aliased : Aliased (insert (a, b) (ofRun done).pairs) a v := by
      obtain ⟨w, same, aliased⟩ := (after.mem_aliases a v.text).1 member
      exact SignedName.ext same ▸ aliased
    rw [canonicalSigned_text, canonicalSigned_text, before.leader_after_add consistent aliased]

theorem canonicalSigned_after_forgottenRun :
    Peaceful forgottenRun ∧
      ((ofRun forgottenRun).relation.canonicalSigned "-d" =
          (ofRun forgottenRun).relation.canonicalSigned "-c" ↔
        "-c" ∈ (ofRun forgottenRun).relation.aliases "-d") ∧
      ∃ (c : SignedName) (sign : Int), c.IsPositive ∧
        (ofRun forgottenRun).relation.canonicalSigned "-d" = .ok (c.text, sign) := by
  obtain ⟨-, same, lead, -⟩ := canonicalSigned_of_run forgottenRun peaceful_forgottenRun
  obtain ⟨c, sign, positive, shown, -⟩ := lead ⟨"-d", by decide⟩
  exact ⟨peaceful_forgottenRun, same ⟨"-d", by decide⟩ ⟨"-c", by decide⟩, c, sign, positive, shown⟩

def repeatedRun : List AliasStep :=
  [.add ⟨"a", rfl⟩ ⟨"b", rfl⟩, .add ⟨"a", rfl⟩ ⟨"b", rfl⟩]

-- The same pair twice: the two names are aliases and no group has them.
theorem repeated_pair_unlisted :
    AliasStep.performAll repeatedRun {} = .ok () (ofRun repeatedRun).relation ∧
      "b" ∈ (ofRun repeatedRun).relation.aliases "a" ∧
      (ofRun repeatedRun).relation.groups = [] :=
  ⟨by rfl, by decide +kernel, by decide +kernel⟩

end Account

end Modelica
