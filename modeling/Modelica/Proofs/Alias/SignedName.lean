import Mathlib.Data.Set.Insert
import Modelica.Alias

set_option autoImplicit false

namespace Modelica

def isSignedName (text : String) : Bool :=
  match text.toList with
  | [] => false
  | '-' :: [] => false
  | '-' :: c :: _ => c ≠ '-'
  | _ => true

structure SignedName where
  text : String
  signed : isSignedName text = true
deriving DecidableEq

namespace SignedName

variable {v w : SignedName} {text : String} {rest : List Char}

@[ext] theorem ext (same : v.text = w.text) : v = w := by
  cases v
  cases w
  simpa using same

@[simp] theorem text_inj : v.text = w.text ↔ v = w := ⟨ext, congrArg text⟩

def IsPositive (v : SignedName) : Prop := v.text.toList.head? ≠ some '-'

instance (v : SignedName) : Decidable v.IsPositive :=
  inferInstanceAs (Decidable (_ ≠ _))

def opposite (text : String) : String :=
  match text.toList with
  | '-' :: rest => String.ofList rest
  | _ => "-" ++ text

theorem toList_cases (v : SignedName) : (∃ c rest, v.text.toList = c :: rest ∧ c ≠ '-') ∨
      ∃ c rest, v.text.toList = '-' :: c :: rest ∧ c ≠ '-' := by
  have signed := v.signed
  unfold isSignedName at signed
  split at signed
  · contradiction
  · contradiction
  · next c rest all => exact .inr ⟨c, rest, all, by simpa using signed⟩
  · next empty alone more =>
    cases all : v.text.toList with
    | nil => exact absurd all empty
    | cons c rest =>
      by_cases sign : c = '-'
      · subst sign
        cases rest with
        | nil => exact absurd all alone
        | cons d rest => exact absurd all (more d rest)
      · exact .inl ⟨c, rest, rfl, sign⟩

theorem toList_opposite_of_positive {c : Char} (all : text.toList = c :: rest)
    (positive : c ≠ '-') : (opposite text).toList = '-' :: c :: rest := by
  unfold opposite
  split
  · next more same =>
    rw [all] at same
    exact absurd (List.head_eq_of_cons_eq same) positive
  · simp [all]

theorem toList_opposite_of_negative (all : text.toList = '-' :: rest) : (opposite text).toList = rest := by
  simp [opposite, all]

theorem isSignedName_opposite (v : SignedName) : isSignedName (opposite v.text) = true := by
  obtain ⟨c, rest, all, positive⟩ | ⟨c, rest, all, positive⟩ := v.toList_cases
  · simp [isSignedName, toList_opposite_of_positive all positive, positive]
  · simp [isSignedName, toList_opposite_of_negative all, positive]

def negate (v : SignedName) : SignedName := ⟨opposite v.text, v.isSignedName_opposite⟩

@[simp] theorem negate_negate (v : SignedName) : v.negate.negate = v := by
  apply ext
  apply String.ext
  obtain ⟨c, rest, all, positive⟩ | ⟨c, rest, all, positive⟩ := v.toList_cases
  · have once : v.negate.text.toList = '-' :: c :: rest := toList_opposite_of_positive all positive
    exact (toList_opposite_of_negative once).trans all.symm
  · have once : v.negate.text.toList = c :: rest := toList_opposite_of_negative all
    exact (toList_opposite_of_positive once positive).trans all.symm

theorem negate_inj : v.negate = w.negate ↔ v = w :=
  ⟨fun same => by rw [← negate_negate v, same, negate_negate], congrArg negate⟩

@[simp] theorem isPositive_negate (v : SignedName) : v.negate.IsPositive ↔ ¬v.IsPositive := by
  unfold IsPositive
  obtain ⟨c, rest, all, positive⟩ | ⟨c, rest, all, positive⟩ := v.toList_cases
  · have once : v.negate.text.toList = '-' :: c :: rest := toList_opposite_of_positive all positive
    simp [once, all, positive]
  · have once : v.negate.text.toList = c :: rest := toList_opposite_of_negative all
    simp [once, all, positive]

@[simp] theorem negate_text (v : SignedName) : AliasRelation.negate v.text = .ok v.negate.text := by
  unfold AliasRelation.negate negate opposite
  obtain ⟨c, rest, all, positive⟩ | ⟨c, rest, all, positive⟩ := v.toList_cases
  · simp [all, positive]
  · simp [all]

@[simp] theorem isNegative_text (v : SignedName) : AliasRelation.isNegative v.text = .ok (decide ¬v.IsPositive) := by
  unfold AliasRelation.isNegative IsPositive
  obtain ⟨c, rest, all, positive⟩ | ⟨c, rest, all, positive⟩ := v.toList_cases
  · simp [all, positive]
  · simp [all]

end SignedName

abbrev AliasPair := SignedName × SignedName

inductive Aliased (pairs : Set AliasPair) : SignedName → SignedName → Prop where
  | pair (a b : SignedName) : (a, b) ∈ pairs → Aliased pairs a b
  | refl (v : SignedName) : Aliased pairs v v
  | symm {v w : SignedName} : Aliased pairs v w → Aliased pairs w v
  | trans {u v w : SignedName} : Aliased pairs u v → Aliased pairs v w → Aliased pairs u w
  | negated {v w : SignedName} : Aliased pairs v w → Aliased pairs v.negate w.negate

namespace Aliased

variable {pairs : Set AliasPair} {u v w a b c : SignedName}

def Consistent (pairs : Set AliasPair) : Prop := ∀ v, ¬Aliased pairs v v.negate

def Near (pairs : Set AliasPair) (v w : SignedName) : Prop :=
  Aliased pairs v w ∨ Aliased pairs v.negate w

theorem negate_left (aliased : Aliased pairs v.negate w) : Aliased pairs v w.negate := by
  simpa using aliased.negated

theorem negate_right (aliased : Aliased pairs v w.negate) : Aliased pairs v.negate w := by
  simpa using aliased.negated

theorem closed {r : SignedName → SignedName → Prop} (equivalence : Equivalence r)
    (negated : ∀ v w, r v w → r v.negate w.negate) (respects : ∀ p ∈ pairs, r p.1 p.2)
    (aliased : Aliased pairs v w) : r v w := by
  induction aliased with
  | pair a b member => exact respects (a, b) member
  | refl v => exact equivalence.refl v
  | symm _ ih => exact equivalence.symm ih
  | trans _ _ first second => exact equivalence.trans first second
  | negated _ ih => exact negated _ _ ih

theorem mono {more : Set AliasPair} (subset : ∀ p ∈ pairs, p ∈ more) (aliased : Aliased pairs v w) : Aliased more v w :=
  aliased.closed ⟨.refl, .symm, .trans⟩ (fun _ _ => .negated) fun p member => .pair p.1 p.2 (subset p member)

theorem empty_iff : Aliased ∅ v w ↔ v = w := by
  refine ⟨fun aliased => ?_, fun same => same ▸ .refl v⟩
  exact aliased.closed (r := Eq) ⟨.refl, .symm, .trans⟩ (fun _ _ => congrArg _)
    (fun p member => absurd member (Set.notMem_empty p))

theorem Near.refl (v : SignedName) : Near pairs v v := .inl (.refl v)

theorem Near.onward (near : Near pairs u v) (aliased : Aliased pairs v w) : Near pairs u w :=
  near.imp (·.trans aliased) (·.trans aliased)

theorem Near.negate (near : Near pairs u v) : Near pairs u v.negate := by
  obtain same | other := near
  · exact .inr same.negated
  · exact .inl other.negate_left

theorem Near.symm (near : Near pairs u v) : Near pairs v u := by
  obtain same | other := near
  · exact .inl same.symm
  · exact .inr other.negate_left.symm

theorem Near.trans (first : Near pairs u v) (second : Near pairs v w) : Near pairs u w := by
  obtain same | other := second
  · exact first.onward same
  · exact first.negate.onward other

section Insert

abbrev OfEither (pairs : Set AliasPair) (a b v : SignedName) : Prop :=
  Aliased pairs a v ∨ Aliased pairs b v

section

variable (consistent : Consistent (insert (a, b) pairs))
include consistent

theorem insert_iff : Aliased (insert (a, b) pairs) v w ↔
      Aliased pairs v w ∨ OfEither pairs a b v ∧ OfEither pairs a b w ∨
        OfEither pairs a.negate b.negate v ∧ OfEither pairs a.negate b.negate w := by
  have kept : ∀ {v w}, Aliased pairs v w → Aliased (insert (a, b) pairs) v w :=
    fun aliased => aliased.mono fun p member => .inr member
  have joined : Aliased (insert (a, b) pairs) a b := .pair a b (.inl rfl)
  have fromFirst : ∀ {v}, OfEither pairs a b v → Aliased (insert (a, b) pairs) a v := by
    rintro v (first | second)
    · exact kept first
    · exact joined.trans (kept second)
  have fromNegative : ∀ {v}, OfEither pairs a.negate b.negate v → Aliased (insert (a, b) pairs) a.negate v := by
    rintro v (first | second)
    · exact kept first
    · exact joined.negated.trans (kept second)
  -- the two joined classes are apart, since otherwise `a` were an alias of its negative
  have apart : ∀ {v}, OfEither pairs a b v → ¬OfEither pairs a.negate b.negate v := fun near far =>
    consistent a ((fromFirst near).trans (fromNegative far).symm)
  have onward : ∀ {x y v w}, Aliased pairs v w → OfEither pairs x y v → OfEither pairs x y w :=
    fun aliased => Or.imp (·.trans aliased) (·.trans aliased)
  constructor
  · refine closed (r := fun v w => Aliased pairs v w ∨ OfEither pairs a b v ∧ OfEither pairs a b w ∨
      OfEither pairs a.negate b.negate v ∧ OfEither pairs a.negate b.negate w) ⟨?_, ?_, ?_⟩ ?_ ?_
    · exact fun v => .inl (.refl v)
    · rintro v w (old | ⟨first, second⟩ | ⟨first, second⟩)
      · exact .inl old.symm
      · exact .inr (.inl ⟨second, first⟩)
      · exact .inr (.inr ⟨second, first⟩)
    · rintro u v w (old | ⟨before, middle⟩ | ⟨before, middle⟩) (more | ⟨between, behind⟩ | ⟨between, behind⟩)
      · exact .inl (old.trans more)
      · exact .inr (.inl ⟨onward old.symm between, behind⟩)
      · exact .inr (.inr ⟨onward old.symm between, behind⟩)
      · exact .inr (.inl ⟨before, onward more middle⟩)
      · exact .inr (.inl ⟨before, behind⟩)
      · exact absurd between (apart middle)
      · exact .inr (.inr ⟨before, onward more middle⟩)
      · exact absurd middle (apart between)
      · exact .inr (.inr ⟨before, behind⟩)
    · rintro v w (old | ⟨first, second⟩ | ⟨first, second⟩)
      · exact .inl old.negated
      · exact .inr (.inr ⟨first.imp .negated .negated, second.imp .negated .negated⟩)
      · refine .inr (.inl ⟨first.imp ?_ ?_, second.imp ?_ ?_⟩) <;> exact negate_left
    · rintro p (rfl | member)
      · exact .inr (.inl ⟨.inl (.refl a), .inr (.refl b)⟩)
      · exact .inl (.pair p.1 p.2 member)
  · rintro (old | ⟨first, second⟩ | ⟨first, second⟩)
    · exact kept old
    · exact (fromFirst first).symm.trans (fromFirst second)
    · exact (fromNegative first).symm.trans (fromNegative second)

theorem insert_iff_of_joined (joined : OfEither pairs a b v) :
    Aliased (insert (a, b) pairs) v w ↔ OfEither pairs a b w := by
  constructor
  · intro aliased
    have first : Aliased (insert (a, b) pairs) a v := (insert_iff consistent).2 (.inr (.inl ⟨.inl (.refl a), joined⟩))
    obtain old | ⟨_, behind⟩ | ⟨across, _⟩ := (insert_iff consistent).1 (first.trans aliased)
    · exact .inl old
    · exact behind
    · have turned : Aliased (insert (a, b) pairs) a.negate a :=
        (insert_iff consistent).2 (.inr (.inr ⟨.inl (.refl _), across⟩))
      exact absurd turned.symm (consistent a)
  · exact fun behind => (insert_iff consistent).2 (.inr (.inl ⟨joined, behind⟩))

theorem insert_iff_of_outside (outside : ¬OfEither pairs a b v)
    (beyond : ¬OfEither pairs a b v.negate) :
    Aliased (insert (a, b) pairs) v w ↔ Aliased pairs v w := by
  rw [insert_iff consistent]
  refine ⟨?_, .inl⟩
  rintro (old | ⟨first, _⟩ | ⟨first, _⟩)
  · exact old
  · exact absurd first outside
  · exact absurd (first.imp negate_left negate_left) beyond

end

end Insert

section Forget

def without (pairs : Set AliasPair) (c : SignedName) : Set AliasPair :=
  {p ∈ pairs | ¬Near pairs c p.1}

theorem of_without (aliased : Aliased (without pairs c) v w) : Aliased pairs v w :=
  aliased.mono fun _ member => member.1

theorem without_iff : Aliased (without pairs c) v w ↔ v = w ∨ Aliased pairs v w ∧ ¬Near pairs c v := by
  constructor
  · refine closed (r := fun v w => v = w ∨ Aliased pairs v w ∧ ¬Near pairs c v) ⟨fun v => .inl rfl, ?_, ?_⟩ ?_ ?_
    · rintro v w (rfl | ⟨old, outside⟩)
      · exact .inl rfl
      · exact .inr ⟨old.symm, fun near => outside (near.onward old.symm)⟩
    · rintro u v w (rfl | ⟨first, outside⟩) (rfl | ⟨second, after⟩)
      · exact .inl rfl
      · exact .inr ⟨second, after⟩
      · exact .inr ⟨first, outside⟩
      · exact .inr ⟨first.trans second, outside⟩
    · rintro v w (rfl | ⟨old, outside⟩)
      · exact .inl rfl
      · exact .inr ⟨old.negated, fun near => outside (by simpa using near.negate)⟩
    · exact fun p member => .inr ⟨.pair p.1 p.2 member.1, member.2⟩
  · rintro (rfl | ⟨old, outside⟩)
    · exact .refl v
    · -- a chain of aliases is inside the class from end to end or avoids it
      have apart : Near pairs c v ∧ Near pairs c w ∨ Aliased (without pairs c) v w := by
        refine closed (r := fun v w => Near pairs c v ∧ Near pairs c w ∨
          Aliased (without pairs c) v w) ⟨fun v => .inr (.refl v), ?_, ?_⟩ ?_ ?_ old
        · exact fun inside => inside.imp And.symm .symm
        · rintro u v w (⟨before, middle⟩ | first) (⟨between, behind⟩ | second)
          · exact .inl ⟨before, behind⟩
          · exact .inl ⟨before, middle.onward second.of_without⟩
          · exact .inl ⟨between.onward first.of_without.symm, behind⟩
          · exact .inr (first.trans second)
        · exact fun v w inside => inside.imp (And.imp .negate .negate) .negated
        · intro p member
          by_cases near : Near pairs c p.1
          · exact .inl ⟨near, near.onward (.pair p.1 p.2 member)⟩
          · exact .inr (.pair p.1 p.2 ⟨member, near⟩)
      exact apart.resolve_left fun inside => outside inside.1

end Forget

end Aliased

end Modelica
