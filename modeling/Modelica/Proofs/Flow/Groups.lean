import Mathlib.Logic.Relation
import Modelica.Flow
import Modelica.Proofs.OrderedMap

set_option autoImplicit false

namespace Modelica

open OrderedMap

abbrev FlowEdge := FlowVariable × FlowVariable

def Linked (edges : List FlowEdge) : FlowVariable → FlowVariable → Prop :=
  Relation.EqvGen fun v w => (v, w) ∈ edges

def IsEnd (edges : List FlowEdge) (v : FlowVariable) : Prop :=
  ∃ e ∈ edges, v = e.1 ∨ v = e.2

theorem isEnd_append_single (edges : List FlowEdge) (l r v : FlowVariable) :
    IsEnd (edges ++ [(l, r)]) v ↔ IsEnd edges v ∨ v = l ∨ v = r := by
  simp [IsEnd, or_and_right, exists_or]

namespace Linked

variable {edges : List FlowEdge} {u v w : FlowVariable}

theorem refl (edges : List FlowEdge) (v : FlowVariable) : Linked edges v v := Relation.EqvGen.refl v

theorem symm (linked : Linked edges v w) : Linked edges w v := Relation.EqvGen.symm v w linked

theorem trans (first : Linked edges u v) (second : Linked edges v w) : Linked edges u w :=
  Relation.EqvGen.trans u v w first second

theorem of_mem (member : (v, w) ∈ edges) : Linked edges v w := Relation.EqvGen.rel v w member

theorem closed {r : FlowVariable → FlowVariable → Prop} (equivalence : Equivalence r)
    (respects : ∀ e ∈ edges, r e.1 e.2) (linked : Linked edges v w) : r v w := by
  induction linked with
  | rel v w member => exact respects (v, w) member
  | refl v => exact equivalence.refl v
  | symm v w _ ih => exact equivalence.symm ih
  | trans u v w _ _ first second => exact equivalence.trans first second

theorem mono {more : List FlowEdge} (subset : ∀ e ∈ edges, e ∈ more) (linked : Linked edges v w) : Linked more v w :=
  linked.closed ⟨refl more, symm, trans⟩ fun e member => of_mem (subset e member)

theorem eq_of_not_end (isolated : ¬ IsEnd edges v) (linked : Linked edges v w) : w = v := by
  have respects : ∀ e ∈ edges, (e.1 = v ↔ e.2 = v) := by
    intro e member
    have first : e.1 ≠ v := fun same => isolated ⟨e, member, .inl same.symm⟩
    have second : e.2 ≠ v := fun same => isolated ⟨e, member, .inr same.symm⟩
    simp [first, second]
  have same : v = v ↔ w = v :=
    linked.closed (r := fun a b => a = v ↔ b = v) ⟨fun _ => Iff.rfl, Iff.symm, Iff.trans⟩ respects
  exact same.1 rfl

theorem isEnd (linked : Linked edges v w) (met : IsEnd edges v) : IsEnd edges w := by
  by_contra isolated
  exact isolated (eq_of_not_end isolated linked.symm ▸ met)

theorem eq_or_isEnd (linked : Linked edges v w) : w = v ∨ IsEnd edges w := by
  by_cases met : IsEnd edges v
  · exact .inr (linked.isEnd met)
  · exact .inl (linked.eq_of_not_end met)

theorem append_single (edges : List FlowEdge) (l r v w : FlowVariable) : Linked (edges ++ [(l, r)]) v w ↔
      Linked edges v w ∨ (Linked edges l v ∨ Linked edges r v) ∧ (Linked edges l w ∨ Linked edges r w) := by
  have onward : ∀ {v w}, Linked edges v w → (Linked edges l v ∨ Linked edges r v) →
      (Linked edges l w ∨ Linked edges r w) :=
    fun linked => Or.imp (·.trans linked) (·.trans linked)
  constructor
  · refine closed (r := fun v w => Linked edges v w ∨ (Linked edges l v ∨ Linked edges r v) ∧
      (Linked edges l w ∨ Linked edges r w)) ⟨?_, ?_, ?_⟩ ?_
    · exact fun v => .inl (.refl edges v)
    · rintro v w (linked | ⟨first, second⟩)
      · exact .inl linked.symm
      · exact .inr ⟨second, first⟩
    · rintro u v w (first | ⟨before, middle⟩) (second | ⟨between, behind⟩)
      · exact .inl (first.trans second)
      · exact .inr ⟨onward first.symm between, behind⟩
      · exact .inr ⟨before, onward second middle⟩
      · exact .inr ⟨before, behind⟩
    · intro e member
      obtain old | new := List.mem_append.1 member
      · exact .inl (.of_mem old)
      · rw [List.mem_singleton] at new
        subst new
        exact .inr ⟨.inl (.refl edges l), .inr (.refl edges r)⟩
  · have kept : ∀ {v w}, Linked edges v w → Linked (edges ++ [(l, r)]) v w :=
      fun linked => linked.mono fun e member => List.mem_append_left _ member
    have joined : Linked (edges ++ [(l, r)]) l r := .of_mem (by simp)
    have fromLeft : ∀ {v}, (Linked edges l v ∨ Linked edges r v) → Linked (edges ++ [(l, r)]) l v := by
      rintro v (left | right)
      · exact kept left
      · exact joined.trans (kept right)
    rintro (linked | ⟨first, second⟩)
    · exact kept linked
    · exact (fromLeft first).symm.trans (fromLeft second)

end Linked

namespace FlowGroups

structure Correct (fits : FlowVariable → ComponentRef → Prop) (groups : FlowGroups)
    (edges : List FlowEdge) : Prop where
  unique : groups.keys.Nodup
  ends : ∀ v, v ∈ groups.keys ↔ IsEnd edges v
  members : ∀ v g, groups.find? v = some g → ∀ w, w ∈ g.keys ↔ Linked edges v w
  once : ∀ v g, groups.find? v = some g → g.keys.Nodup
  refs : ∀ v g, groups.find? v = some g → ∀ e ∈ g.entries, fits e.1 e.2

variable {fits : FlowVariable → ComponentRef → Prop} {groups : FlowGroups} {edges : List FlowEdge}

theorem correct_empty : Correct fits .empty [] where
  unique := List.nodup_nil
  ends v := by simp [OrderedMap.keys, IsEnd]
  members v g found := by simp [OrderedMap.find?] at found
  once v g found := by simp [OrderedMap.find?] at found
  refs v g found := by simp [OrderedMap.find?] at found

theorem groupOf_of_mem (v : FlowVariable) (met : v ∈ groups.keys) : groups.find? v = some (groups.groupOf v) := by
  obtain ⟨g, found⟩ := Option.isSome_iff_exists.1 ((groups.find?_isSome_iff v).2 met)
  rw [groupOf, found, Option.getD_some]

theorem groupOf_of_not_mem (v : FlowVariable) (unmet : v ∉ groups.keys) : groups.groupOf v = .empty := by
  rw [groupOf, (groups.find?_eq_none_iff v).2 unmet, Option.getD_none]

namespace Correct

section

variable (correct : Correct fits groups edges)
include correct

theorem mem_groupOf (v w : FlowVariable) :
    w ∈ (groups.groupOf v).keys ∨ w = v ↔ Linked edges v w := by
  by_cases met : v ∈ groups.keys
  · rw [correct.members v _ (groupOf_of_mem v met)]
    constructor
    · rintro (linked | rfl)
      · exact linked
      · exact .refl edges w
    · exact .inl
  · rw [groupOf_of_not_mem v met]
    constructor
    · rintro (inside | rfl)
      · simp [OrderedMap.keys] at inside
      · exact .refl edges w
    · intro linked
      exact .inr (linked.eq_of_not_end fun isEnd => met ((correct.ends v).2 isEnd))

theorem nodup_groupOf (v : FlowVariable) : (groups.groupOf v).keys.Nodup := by
  by_cases met : v ∈ groups.keys
  · exact correct.once v _ (groupOf_of_mem v met)
  · rw [groupOf_of_not_mem v met]
    exact List.nodup_nil

theorem fits_groupOf (v : FlowVariable) : ∀ e ∈ (groups.groupOf v).entries, fits e.1 e.2 := by
  by_cases met : v ∈ groups.keys
  · exact correct.refs v _ (groupOf_of_mem v met)
  · rw [groupOf_of_not_mem v met]
    simp

end

end Correct

def joined (groups : FlowGroups) (l : FlowVariable) (lRef : ComponentRef) (r : FlowVariable)
    (rRef : ComponentRef) : FlowGroup :=
  (((groups.groupOf l).union (groups.groupOf r)).insert l lRef).insert r rRef

section

variable (groups : FlowGroups) (l : FlowVariable) (lRef : ComponentRef) (r : FlowVariable)
  (rRef : ComponentRef) (v : FlowVariable)

theorem find?_connect :
    (groups.connect l lRef r rRef).find? v =
      if v ∈ (groups.joined l lRef r rRef).keys then some (groups.joined l lRef r rRef)
      else groups.find? v :=
  find?_insertAll _ _ _ _

theorem mem_keys_connect :
    v ∈ (groups.connect l lRef r rRef).keys ↔ v ∈ (groups.joined l lRef r rRef).keys ∨ v ∈ groups.keys :=
  mem_keys_insertAll _ _ _ _

end

section Connect

variable (correct : Correct fits groups edges) (l : FlowVariable) (lRef : ComponentRef)
  (r : FlowVariable) (rRef : ComponentRef)
include correct

theorem mem_joined (v : FlowVariable) :
    v ∈ (groups.joined l lRef r rRef).keys ↔ Linked edges l v ∨ Linked edges r v := by
  rw [← correct.mem_groupOf l v, ← correct.mem_groupOf r v, joined]
  simp only [mem_keys_insert, mem_keys_union]
  tauto

theorem nodup_joined : (groups.joined l lRef r rRef).keys.Nodup :=
  nodup_insert _ (nodup_insert _ (nodup_union _ _ (correct.nodup_groupOf l)) _ _) _ _

theorem fits_joined (left : fits l lRef) (right : fits r rRef) :
    ∀ e ∈ (groups.joined l lRef r rRef).entries, fits e.1 e.2 := by
  intro e member
  obtain rfl | member := mem_entries_insert _ _ _ _ member
  · exact right
  obtain rfl | member := mem_entries_insert _ _ _ _ member
  · exact left
  obtain first | second := mem_entries_union _ _ _ member
  · exact correct.fits_groupOf l e first
  · exact correct.fits_groupOf r e second

theorem connect_correct (left : fits l lRef) (right : fits r rRef) :
    Correct fits (groups.connect l lRef r rRef) (edges ++ [(l, r)]) := by
  have inJoined := mem_joined correct l lRef r rRef
  refine ⟨nodup_insertAll _ _ correct.unique _, ?_, ?_, ?_, ?_⟩
  · intro v
    rw [mem_keys_connect, inJoined, correct.ends, isEnd_append_single]
    constructor
    · rintro ((linked | linked) | met)
      · exact linked.eq_or_isEnd.symm.imp id .inl
      · exact linked.eq_or_isEnd.symm.imp id .inr
      · exact .inl met
    · rintro (met | rfl | rfl)
      · exact .inr met
      · exact .inl (.inl (.refl edges v))
      · exact .inl (.inr (.refl edges v))
  · intro v g found w
    rw [find?_connect] at found
    rw [Linked.append_single]
    split at found
    · next inside =>
      cases found
      rw [inJoined] at inside ⊢
      constructor
      · exact fun behind => .inr ⟨inside, behind⟩
      · rintro (linked | ⟨_, behind⟩)
        · exact inside.imp (·.trans linked) (·.trans linked)
        · exact behind
    · next outside =>
      rw [inJoined] at outside
      rw [correct.members v g found]
      constructor
      · exact .inl
      · rintro (linked | ⟨inside, _⟩)
        · exact linked
        · exact absurd inside outside
  · intro v g found
    rw [find?_connect] at found
    split at found
    · cases found
      exact nodup_joined correct l lRef r rRef
    · exact correct.once v g found
  · intro v g found
    rw [find?_connect] at found
    split at found
    · cases found
      exact fits_joined correct l lRef r rRef left right
    · exact correct.refs v g found

end Connect

structure Apart (groups : FlowGroups) (found : List FlowGroup) : Prop where
  known : ∀ g ∈ found, ∃ v, groups.find? v = some g
  apart : found.Pairwise fun g h => ∀ v, v ∈ g.keys → v ∉ h.keys

section Distinct

variable (correct : Correct fits groups edges)
include correct

theorem apart_append (found : List FlowGroup) (before : Apart groups found) (v : FlowVariable)
    (g : FlowGroup) (here : groups.find? v = some g) (new : ∀ h ∈ found, v ∉ h.keys) : Apart groups (found ++ [g]) := by
  constructor
  · intro h member
    obtain old | last := List.mem_append.1 member
    · exact before.known h old
    · exact ⟨v, List.mem_singleton.1 last ▸ here⟩
  · rw [List.pairwise_append]
    refine ⟨before.apart, List.pairwise_singleton _ _, ?_⟩
    intro h member k last w inside also
    rw [List.mem_singleton.1 last, correct.members v g here] at also
    obtain ⟨u, known⟩ := before.known h member
    -- a shared variable links the two groups, so the older one holds `v` already
    have linked := (correct.members u h known w).1 inside
    exact new h member ((correct.members u h known v).2 (linked.trans also.symm))

theorem distinct_correct : Apart groups groups.distinct ∧ ∀ v ∈ groups.keys, ∃ g ∈ groups.distinct, v ∈ g.keys := by
  have walk : ∀ (es : List (FlowVariable × FlowGroup)) (found : List FlowGroup),
      (∀ e ∈ es, groups.find? e.1 = some e.2) → Apart groups found →
      let result := es.foldl (fun found e =>
        if found.any (fun g => g.contains e.1) then found else found ++ [e.2]) found
      Apart groups result ∧ (∀ g ∈ found, g ∈ result) ∧ ∀ e ∈ es, ∃ g ∈ result, e.1 ∈ g.keys := by
    intro es
    induction es with
    | nil => simp
    | cons e es ih =>
      intro found entries before
      have here := entries e List.mem_cons_self
      have later := fun f member => entries f (List.mem_cons_of_mem e member)
      rw [List.foldl_cons]
      by_cases seen : found.any (fun g => g.contains e.1)
      · rw [if_pos seen]
        obtain ⟨apart, kept, covered⟩ := ih found later before
        obtain ⟨g, member, inside⟩ := List.any_eq_true.1 seen
        refine ⟨apart, kept, ?_⟩
        rintro f (_ | _)
        · exact ⟨g, kept g member, (g.contains_iff e.1).1 inside⟩
        · next member => exact covered f member
      · rw [if_neg seen]
        have new : ∀ h ∈ found, e.1 ∉ h.keys := by
          intro h member inside
          exact seen (List.any_eq_true.2 ⟨h, member, (h.contains_iff e.1).2 inside⟩)
        obtain ⟨apart, kept, covered⟩ := ih (found ++ [e.2]) later (apart_append correct found before e.1 e.2 here new)
        refine ⟨apart, fun g member => kept g (List.mem_append_left _ member), ?_⟩
        rintro f (_ | _)
        · exact ⟨e.2, kept e.2 (by simp), (correct.members e.1 e.2 here e.1).2 (.refl edges e.1)⟩
        · next member => exact covered f member
  have entries : ∀ e ∈ groups.entries, groups.find? e.1 = some e.2 :=
    fun e member => groups.find?_of_mem correct.unique e.1 e.2 member
  obtain ⟨apart, _, covered⟩ := walk groups.entries [] entries ⟨by simp, .nil⟩
  refine ⟨apart, ?_⟩
  intro v member
  obtain ⟨e, inside, rfl⟩ := List.mem_map.1 member
  exact covered e inside

end Distinct

end FlowGroups

end Modelica
