import Mathlib.Data.Finset.Card
import Mathlib.Data.Finset.Range
import Modelica.Proofs.Library.Contents

set_option autoImplicit false

namespace Modelica

namespace Copy

open Build Library Outline

def Memo.Pairs (lib : Library) (shared : Prop) (memo : Memo) : Entry → Entry → Prop
  | .class_ c, .class_ d => (c, d) ∈ memo.classes ∧ lib.classes.size ≤ d.index ∨
    shared ∧ d.index < lib.classes.size ∧ lib.originOf d = lib.originOf c
  | .symbol s, .symbol t => (s, t) ∈ memo.symbols
  | .modification m, .modification n => (m, n) ∈ memo.modifications
  | .argument a, .argument b => (a, b) ∈ memo.arguments
  | _, _ => False

structure Memo.Within (memo after : Memo) : Prop where
  classes : memo.classes ⊆ after.classes
  symbols : memo.symbols ⊆ after.symbols
  modifications : memo.modifications ⊆ after.modifications
  arguments : memo.arguments ⊆ after.arguments

theorem Memo.Within.refl (memo : Memo) : memo.Within memo :=
  ⟨List.Subset.refl _, List.Subset.refl _, List.Subset.refl _, List.Subset.refl _⟩

variable {memo after : Memo} {lib now : Library} {shared : Prop} {e x : Entry}

theorem Memo.Within.trans {mid : Memo} (first : memo.Within mid) (second : mid.Within after) : memo.Within after :=
  ⟨List.Subset.trans first.classes second.classes, List.Subset.trans first.symbols second.symbols,
    List.Subset.trans first.modifications second.modifications,
    List.Subset.trans first.arguments second.arguments⟩

theorem Memo.Pairs.later (pair : memo.Pairs lib shared e x) (within : memo.Within after) :
    after.Pairs lib shared e x := by
  cases e <;> cases x <;> try exact pair
  · exact pair.imp_left (.imp_left fun listed => within.classes listed)
  · exact within.symbols pair
  · exact within.modifications pair
  · exact within.arguments pair

def missing (bound : Nat) (numbers : List Nat) : Nat :=
  (Finset.range bound \ numbers.toFinset).card

theorem missing_cons_le (bound n : Nat) (numbers : List Nat) :
    missing bound (n :: numbers) ≤ missing bound numbers := by
  refine Finset.card_le_card (Finset.sdiff_subset_sdiff (Finset.Subset.refl _) ?_)
  simp

theorem missing_cons_lt (bound n : Nat) (numbers : List Nat) (below : n < bound)
    (absent : n ∉ numbers) : missing bound (n :: numbers) < missing bound numbers := by
  refine Finset.card_lt_card ((Finset.ssubset_iff_of_subset ?_).2 ⟨n, ?_, ?_⟩)
  · exact Finset.sdiff_subset_sdiff (Finset.Subset.refl _) (by simp)
  · simp [below, absent]
  · simp

def Memo.left (lib : Library) (memo : Memo) : Nat :=
  missing lib.classes.size (memo.classes.map (·.1.index)) +
    missing lib.symbols.size (memo.symbols.map (·.1.index)) +
    missing lib.modifications.size (memo.modifications.map (·.1.index)) +
    missing lib.arguments.size (memo.arguments.map (·.1.index))

def Memo.note (memo : Memo) : Entry → Entry → Memo
  | .class_ c, .class_ d => { memo with classes := (c, d) :: memo.classes }
  | .symbol s, .symbol t => { memo with symbols := (s, t) :: memo.symbols }
  | .modification m, .modification n => { memo with modifications := (m, n) :: memo.modifications }
  | .argument a, .argument b => { memo with arguments := (a, b) :: memo.arguments }
  | _, _ => memo

def Memo.Lacks (memo : Memo) : Entry → Prop
  | .class_ c => memo.classes.lookup c = none
  | .symbol s => memo.symbols.lookup s = none
  | .modification m => memo.modifications.lookup m = none
  | .argument a => memo.arguments.lookup a = none

def SameKind : Entry → Entry → Prop
  | .class_ _, .class_ _ | .symbol _, .symbol _ | .modification _, .modification _
  | .argument _, .argument _ => True
  | _, _ => False

section Notes

variable {lib : Library} {shared : Prop} (memo : Memo) {e x : Entry}

theorem Memo.within_note (e x : Entry) : memo.Within (memo.note e x) := by
  have refl := Memo.Within.refl memo
  cases e <;> cases x <;> try exact refl
  · exact { refl with classes := List.subset_cons_self _ _ }
  · exact { refl with symbols := List.subset_cons_self _ _ }
  · exact { refl with modifications := List.subset_cons_self _ _ }
  · exact { refl with arguments := List.subset_cons_self _ _ }

theorem Memo.pairs_note (kind : SameKind e x) (new : ¬ lib.Has x) (e' x' : Entry) :
    (memo.note e x).Pairs lib shared e' x' ↔ e' = e ∧ x' = x ∨ memo.Pairs lib shared e' x' := by
  cases e <;> cases x <;> try exact kind.elim
  all_goals
    simp only [Has, Nat.not_lt] at new
    cases e' <;> cases x' <;> simp [Memo.note, Memo.Pairs]
  grind

theorem Memo.pairs_noteOld (c : ClassId) {d : ClassId} (known : lib.Has (.class_ d)) (e x : Entry) :
    (memo.note (.class_ c) (.class_ d)).Pairs lib shared e x ↔ memo.Pairs lib shared e x := by
  have below : ¬ d.New lib := Nat.not_le.2 known
  cases e <;> cases x <;> simp [Memo.note, Memo.Pairs]
  grind

theorem Memo.lookup_note (kind : SameKind e x) {c d : ClassId} (found : (memo.note e x).classes.lookup c = some d) :
    e = .class_ c ∧ x = .class_ d ∨ e ≠ .class_ c ∧ memo.classes.lookup c = some d := by
  cases e <;> cases x <;> try exact kind.elim
  · rw [Memo.note, List.lookup_cons] at found
    grind
  all_goals exact .inr ⟨by simp, found⟩

theorem Memo.left_note_le : (memo.note e x).left lib ≤ memo.left lib := by
  cases e <;> cases x <;> simp only [Memo.note, Memo.left, List.map_cons, Nat.le_refl,
    Nat.add_le_add_iff_left, Nat.add_le_add_iff_right, missing_cons_le]

theorem index_not_mem {κ γ : Type} [DecidableEq κ] {index : κ → Nat}
    (injective : Function.Injective index) {xs : List (κ × γ)} {k : κ}
    (lacks : xs.lookup k = none) : index k ∉ xs.map fun p => index p.1 := by
  intro member
  obtain ⟨p, listed, same⟩ := List.mem_map.1 member
  have other := List.lookup_eq_none_iff.1 lacks p listed
  rw [injective same] at other
  simp at other

theorem Memo.left_note_lt (kind : SameKind e x) (has : lib.Has e) (lacks : memo.Lacks e) :
    (memo.note e x).left lib < memo.left lib := by
  cases e <;> cases x <;> try exact kind.elim
  all_goals
    simp only [Memo.note, Memo.left, List.map_cons, Nat.add_lt_add_iff_left, Nat.add_lt_add_iff_right]
    refine missing_cons_lt _ _ _ has (index_not_mem ?_ lacks)
    rintro ⟨i⟩ ⟨j⟩ rfl
    rfl

end Notes

theorem Memo.left_empty (lib : Library) : ({} : Memo).left lib = lib.size := by
  simp [Memo.left, missing, Library.size]

def Ends (W : Memo → Library → Prop) {α : Type} (x : Copying α) (memo : Memo)
    (now : Library) (post : Memo → α → Prop) : Prop :=
  Returns (x.run memo) now fun r next =>
    W r.2 next ∧ memo.Within r.2 ∧ ∀ final, r.2.Within final → post final r.1

section Ends

variable {now : Library} {memo : Memo} {W W' : Memo → Library → Prop} {α β : Type}
  {post : Memo → β → Prop}

theorem Ends.pure {b : β} (working : W memo now) (holds : ∀ final, memo.Within final → post final b) :
    Ends W (pure b : Copying β) memo now post := by
  rw [Ends, StateT.run_pure, Returns, ensures_pure]
  exact ⟨working, .refl memo, holds⟩

theorem Ends.get {f : Memo → Copying β} (then_ : Ends W (f memo) memo now post) : Ends W (get >>= f) memo now post :=
  (ensures_run_get f).2 then_

theorem Ends.lift {x : Build α} {f : α → Copying β} (each : x.Returns now fun a next => Ends W (f a) memo next post) :
    Ends W (Copy.lift x >>= f) memo now post :=
  (ensures_run_lift x f).2 each

theorem Ends.modify {f : PUnit → Copying β} (g : Memo → Memo) (within : memo.Within (g memo))
    (then_ : Ends W (f PUnit.unit) (g memo) now post) : Ends W (modify g >>= f) memo now post := by
  refine (ensures_run_modify g f).2 (then_.imp ?_)
  exact fun r next ⟨working, more, holds⟩ => ⟨working, within.trans more, holds⟩

theorem Ends.bind {x : Copying α} {f : α → Copying β} {mid : Memo → α → Prop} (first : Ends W x memo now mid)
    (second : ∀ a after next, W after next → memo.Within after →
      (∀ final, after.Within final → mid final a) → Ends W' (f a) after next post) :
    Ends W' (x >>= f) memo now post := by
  rw [Ends, StateT.run_bind, Returns, ensures_bind]
  refine first.imp ?_
  rintro ⟨a, after⟩ next ⟨working, less, holds⟩
  refine (second a after next working less holds).imp ?_
  exact fun r last ⟨working, more, right⟩ => ⟨working, less.trans more, right⟩

def taking (W : Memo → Library → Prop) :
    Staging (StateT Memo (EStateM Error Library)) Memo where
  gives x post := ∀ memo now, W memo now → Ends W x memo now post
  pure holds := fun _ _ working => .pure working fun final _ => holds final
  bind first second := fun memo now working => by
    rw [Ends, StateT.run_bind, Returns, ensures_bind]
    refine (first memo now working).imp ?_
    rintro ⟨a, after⟩ next ⟨working, less, holds⟩
    refine (second a after next working).imp ?_
    exact fun r last ⟨working, more, right⟩ => ⟨working, less.trans more, fun final within =>
      right final within (holds final (more.trans within))⟩

end Ends

theorem Memo.Pairs.of_empty (pair : ({} : Memo).Pairs lib shared e x) : shared ∧ ∃ c d, e = .class_ c ∧ x = .class_ d ∧
      lib.Has (.class_ d) ∧ lib.originOf d = lib.originOf c := by
  cases e <;> cases x <;> simp [Memo.Pairs] at pair
  exact ⟨pair.1, _, _, rfl, rfl, pair.2⟩

def Kept (lib now : Library) : Entry → Entry → Prop
  | .class_ c, .class_ d => now.originOf d = lib.originOf c ∧
    (¬ lib.Has (.class_ d) → Framed (lib.classOf (lib.originOf c)) (now.classOf d))
  | .argument a, .argument b =>
    (now.argumentOf b).redeclare = (lib.argumentOf (lib.argumentOf a).origin).redeclare
  | _, _ => True

theorem Kept.same {next : Library} (kept : Kept lib now e x) (same : now.SameAt next x) : Kept lib next e x := by
  cases e <;> cases x <;> simp_all [Kept, SameAt, originOf]

theorem Kept.source {e' : Entry} (kept : Kept lib now e x)
    (same : lib.sourceOf e = lib.sourceOf e') : Kept lib now e' x := by
  cases e <;> cases e' <;> cases x <;> simp_all [Kept, sourceOf]

structure Working (lib : Library) (shared : Prop) (opened : List Entry) (around : List ClassId)
    (limit : Nat) (memo : Memo) (now : Library) : Prop where
  added : lib.Added now
  new : ∀ e x, memo.Pairs lib shared e x →
    now.Has x ∧ (¬ lib.Has x ∨ shared ∧ lib.sourceOf e = lib.sourceOf x ∧ ∃ d, x = .class_ d)
  kept : ∀ e x, memo.Pairs lib shared e x → Kept lib now e x
  one : ∀ e e' x, memo.Pairs lib shared e x → memo.Pairs lib shared e' x →
    lib.sourceOf e = lib.sourceOf e'
  known : ∀ e x, memo.Pairs lib shared e x → ¬ lib.Has x → lib.Has e
  plain : ∀ e x, memo.Pairs lib shared e x → shared ∨ lib.sourceOf e = e
  all : ∀ x, now.Has x → lib.Has x ∨ x ∈ opened ∨ ∃ e, memo.Pairs lib shared e x
  own : ∀ c d, memo.classes.lookup c = some d →
    ¬ shared ∧ c ∈ around ∨ memo.Pairs lib shared (.class_ c) (.class_ d)
  done : ∀ e x, memo.Pairs lib shared e x → ¬ lib.Has x → x ∉ opened → ∀ final, memo.Within final →
    (lib.outlineOf (lib.sourceOf e)).Alike (final.Pairs lib shared) (now.outlineOf x)
  arguments : ∀ a b, memo.Pairs lib shared (.argument a) (.argument b) → .argument b ∉ opened →
    (now.argumentOf b).origin = (lib.argumentOf a).origin ∧
      (now.argumentOf b).scope = (lib.argumentOf (lib.argumentOf a).origin).scope
  left : memo.left lib ≤ limit

namespace Working

variable {lib now next : Library} {shared : Prop} {opened : List Entry} {around : List ClassId}
  {limit : Nat} {memo : Memo} {e x : Entry}

theorem empty (lib : Library) (shared : Prop) (around : List ClassId) :
    Working lib shared [] around lib.size {} lib where
  added := .refl lib
  new e x pair := by
    obtain ⟨sharing, c, d, rfl, rfl, known, same⟩ := Memo.Pairs.of_empty pair
    exact ⟨known, .inr ⟨sharing, congrArg Entry.class_ same.symm, d, rfl⟩⟩
  kept e x pair := by
    obtain ⟨-, c, d, rfl, rfl, known, same⟩ := Memo.Pairs.of_empty pair
    exact ⟨same, fun new => (new known).elim⟩
  one e e' x pair pair' := by
    obtain ⟨-, c, d, rfl, rfl, -, same⟩ := Memo.Pairs.of_empty pair
    obtain ⟨-, c', _, rfl, ⟨⟩, -, same'⟩ := Memo.Pairs.of_empty pair'
    exact congrArg Entry.class_ (same.symm.trans same')
  known e x pair new := by
    obtain ⟨-, c, d, rfl, rfl, known, -⟩ := Memo.Pairs.of_empty pair
    exact (new known).elim
  plain e x pair := .inl (Memo.Pairs.of_empty pair).1
  all x := .inl
  own c d found := by simp at found
  done e x pair new := by
    obtain ⟨-, c, d, rfl, rfl, known, -⟩ := Memo.Pairs.of_empty pair
    exact (new known).elim
  arguments a b pair := by simp [Memo.Pairs] at pair
  left := Nat.le_of_eq (Memo.left_empty lib)

variable {around' : List ClassId}

section

variable (working : Working lib shared opened around limit memo now)
include working

theorem wider {opened' : List Entry} (moreOpened : ∀ x ∈ opened, x ∈ opened')
    (moreAround : ∀ c ∈ around, c ∈ around') : Working lib shared opened' around' limit memo now :=
  { working with
    all := fun x has => (working.all x has).imp_right (.imp_left (moreOpened x))
    own := fun c d found => (working.own c d found).imp_left (.imp_right (moreAround c))
    done := fun e x pair new closed => working.done e x pair new fun member => closed (moreOpened x member)
    arguments := fun a b pair closed => working.arguments a b pair fun member => closed (moreOpened _ member) }

theorem touch (touches : now.Touches next x) (free : x ∈ opened) (new : ¬ lib.Has x)
    (kept : ∀ e, memo.Pairs lib shared e x → Kept lib next e x) : Working lib shared opened around limit memo next := by
  have other : ∀ e x', memo.Pairs lib shared e x' → x' ∉ opened → now.SameAt next x' := by
    intro e x' pair closed
    refine touches.same x' (working.new e x' pair).1 ?_
    rintro rfl
    exact closed free
  refine ⟨working.added.touch touches new, fun e x' pair => ?_, fun e x' pair => ?_, working.one,
    working.known, working.plain, fun x' has => ?_, working.own,
    fun e x' pair fresh closed => ?_, fun a b pair closed => ?_, working.left⟩
  · exact ⟨touches.has x' (working.new e x' pair).1, (working.new e x' pair).2⟩
  · by_cases same : x' = x
    · subst same
      exact kept e pair
    · exact (working.kept e x' pair).same (touches.same x' (working.new _ _ pair).1 same)
  · obtain before | rfl := touches.only x' has
    · exact working.all x' before
    · exact .inr (.inl free)
  · rw [(other e x' pair closed).outlineOf]
    exact working.done e x' pair fresh closed
  · have still : next.argumentOf b = now.argumentOf b := other _ _ pair closed
    rw [still]
    exact working.arguments a b pair closed

theorem note (kind : SameKind e x) (there : now.Has x) (new : ¬ lib.Has x)
    (kept : Kept lib now e x) (known : lib.Has e) (plain : shared ∨ lib.sourceOf e = e)
    (fresh : ∀ e', memo.Pairs lib shared e' x → lib.sourceOf e' = lib.sourceOf e)
    (unfinished : x ∈ opened ∨ ∃ e', memo.Pairs lib shared e' x) (still : ∀ c ∈ around, e = .class_ c ∨ c ∈ around') :
    Working lib shared opened around' limit (memo.note e x) now := by
  have pairs : ∀ e' x', (memo.note e x).Pairs lib shared e' x' ↔
      e' = e ∧ x' = x ∨ memo.Pairs lib shared e' x' := memo.pairs_note kind new
  have more := memo.within_note e x
  refine ⟨working.added, fun e' x' pair => ?_, fun e' x' pair => ?_, fun e₁ e₂ x' first second => ?_,
    fun e' x' pair new' => ?_, fun e' x' pair => ?_, fun x' has => ?_, fun c d found => ?_,
    fun e' x' pair fresh' closed final within => ?_, fun a b pair closed => ?_,
    (memo.left_note_le).trans working.left⟩
  · obtain ⟨rfl, rfl⟩ | pair := (pairs e' x').1 pair
    · exact ⟨there, .inl new⟩
    · exact working.new e' x' pair
  · obtain ⟨rfl, rfl⟩ | pair := (pairs e' x').1 pair
    · exact kept
    · exact working.kept e' x' pair
  · obtain ⟨rfl, rfl⟩ | held := (pairs _ _).1 first
    · obtain ⟨rfl, -⟩ | held := (pairs _ _).1 second
      · rfl
      · exact (fresh e₂ held).symm
    · obtain ⟨rfl, rfl⟩ | held' := (pairs _ _).1 second
      · exact fresh e₁ held
      · exact working.one e₁ e₂ x' held held'
  · obtain ⟨rfl, rfl⟩ | pair := (pairs e' x').1 pair
    · exact known
    · exact working.known e' x' pair new'
  · obtain ⟨rfl, rfl⟩ | pair := (pairs e' x').1 pair
    · exact plain
    · exact working.plain e' x' pair
  · exact (working.all x' has).imp_right (.imp_right fun ⟨e', pair⟩ => ⟨e', (pairs e' x').2 (.inr pair)⟩)
  · obtain ⟨rfl, rfl⟩ | ⟨other, found⟩ := memo.lookup_note kind found
    · exact .inr ((pairs _ _).2 (.inl ⟨rfl, rfl⟩))
    · exact (working.own c d found).imp (.imp_right fun listed => (still c listed).resolve_left other)
        fun pair => (pairs _ _).2 (.inr pair)
  · obtain ⟨rfl, rfl⟩ | pair := (pairs e' x').1 pair
    · obtain ⟨e₀, pair⟩ := unfinished.resolve_left closed
      rw [← fresh e₀ pair]
      exact working.done e₀ x' pair fresh' closed final (more.trans within)
    · exact working.done e' x' pair fresh' closed final (more.trans within)
  · obtain ⟨rfl, rfl⟩ | pair := (pairs _ _).1 pair
    · obtain ⟨e₀, pair⟩ := unfinished.resolve_left closed
      have same := fresh e₀ pair
      cases e₀ with
      | argument a₀ =>
        simp only [sourceOf, Entry.argument.injEq] at same
        rw [← same]
        exact working.arguments a₀ b pair closed
      | class_ _ | symbol _ | modification _ => exact pair.elim
    · exact working.arguments a b pair closed

theorem noteOld {c d : ClassId} (known : lib.Has (.class_ d))
    (listed : ¬ shared ∧ c ∈ around ∨ shared ∧ lib.originOf d = lib.originOf c) :
    Working lib shared opened around limit (memo.note (.class_ c) (.class_ d)) now := by
  have pairs : ∀ e x, (memo.note (.class_ c) (.class_ d)).Pairs lib shared e x ↔
      memo.Pairs lib shared e x := memo.pairs_noteOld c known
  have more := memo.within_note (.class_ c) (.class_ d)
  refine ⟨working.added, fun e x pair => working.new e x ((pairs e x).1 pair),
    fun e x pair => working.kept e x ((pairs e x).1 pair),
    fun e e' x first second => working.one e e' x ((pairs _ _).1 first) ((pairs _ _).1 second),
    fun e x pair => working.known e x ((pairs e x).1 pair),
    fun e x pair => working.plain e x ((pairs e x).1 pair),
    fun x has => (working.all x has).imp_right (.imp_right fun ⟨e, pair⟩ => ⟨e, (pairs e x).2 pair⟩),
    fun c' d' found => ?_,
    fun e x pair new closed final within => working.done e x ((pairs e x).1 pair) new closed final (more.trans within),
    fun a b pair => working.arguments a b ((pairs _ _).1 pair),
    memo.left_note_le.trans working.left⟩
  rw [pairs]
  obtain ⟨same, same'⟩ | ⟨-, found⟩ := memo.lookup_note (e := .class_ c) (x := .class_ d) trivial found
  · cases same
    cases same'
    exact listed.imp_right fun ⟨sharing, same⟩ => .inr ⟨sharing, known, same⟩
  · exact working.own c' d' found

theorem renote {e₀ : Entry} (pair : memo.Pairs lib shared e₀ x) (new : ¬ lib.Has x)
    (kind : SameKind e x) (same : lib.sourceOf e₀ = lib.sourceOf e) (known : lib.Has e)
    (plain : shared ∨ lib.sourceOf e = e) (still : ∀ c ∈ around, e = .class_ c ∨ c ∈ around') :
    Working lib shared opened around' limit (memo.note e x) now ∧ (memo.note e x).Pairs lib shared e x := by
  refine ⟨working.note kind (working.new e₀ x pair).1 new ((working.kept e₀ x pair).source same)
    known plain (fun e' pair' => ?_) (.inr ⟨e₀, pair⟩) still,
    (memo.pairs_note kind new e x).2 (.inl ⟨rfl, rfl⟩)⟩
  rw [← same]
  exact working.one e' e₀ x pair' pair

theorem open_ (touches : now.Touches next x) (absent : ¬ now.Has x) (there : next.Has x)
    (kind : SameKind e x) (has : lib.Has e) (lacks : memo.Lacks e) (source : lib.sourceOf e = e)
    (kept : Kept lib next e x) :
    ∃ n, limit = n + 1 ∧ Working lib shared (x :: opened) around n (memo.note e x) next ∧
      (memo.note e x).Pairs lib shared e x ∧ ¬ lib.Has x := by
  have new : ¬ lib.Has x := fun old => absent (working.added x old).1
  have unnoted : ∀ e', ¬ memo.Pairs lib shared e' x := fun e' pair => absent (working.new e' x pair).1
  have less := (memo.left_note_lt (x := x) kind has lacks).trans_le working.left
  obtain ⟨n, rfl⟩ : ∃ n, limit = n + 1 := Nat.exists_eq_add_one.2 (Nat.zero_lt_of_lt less)
  have opened' : Working lib shared (x :: opened) around (n + 1) memo now :=
    working.wider (fun _ member => List.mem_cons_of_mem _ member) fun _ => id
  have touched := opened'.touch touches List.mem_cons_self new fun e' pair => (unnoted e' pair).elim
  have noted := touched.note kind there new kept has (.inr source)
    (fun e' pair => (unnoted e' pair).elim) (.inl List.mem_cons_self) fun _ => .inr
  exact ⟨n, rfl, { noted with left := Nat.le_of_lt_succ less }, (memo.pairs_note kind new e x).2 (.inl ⟨rfl, rfl⟩), new⟩

end

theorem finish {n : Nat} (working : Working lib shared (x :: opened) around n memo now)
    (touches : now.Touches next x) (new : ¬ lib.Has x) (pair : memo.Pairs lib shared e x)
    (source : lib.sourceOf e = e) (kept : Kept lib next e x)
    (alike : ∀ final, memo.Within final → (lib.outlineOf e).Alike (final.Pairs lib shared) (next.outlineOf x))
    (arguments : ∀ a b, e = .argument a → x = .argument b →
      (next.argumentOf b).origin = a ∧ (next.argumentOf b).scope = (lib.argumentOf a).scope) :
    Working lib shared opened around (n + 1) memo next := by
  have touched := working.touch touches List.mem_cons_self new
    fun e' pair' => kept.source (working.one e e' x pair pair')
  refine { touched with
    all := fun x' has => ?_
    done := fun e' x' pair' new' closed => ?_
    arguments := fun a b pair' closed => ?_
    left := Nat.le_succ_of_le working.left }
  · obtain old | member | paired := touched.all x' has
    · exact .inl old
    · obtain rfl | member := List.mem_cons.1 member
      · exact .inr (.inr ⟨e, pair⟩)
      · exact .inr (.inl member)
    · exact .inr (.inr paired)
  · by_cases same : x' = x
    · subst same
      rw [working.one e' e x' pair' pair, source]
      exact alike
    · exact touched.done e' x' pair' new' (by simp [same, closed])
  · by_cases same : .argument b = x
    · subst same
      have sources := working.one _ _ _ pair' pair
      rw [source] at sources
      rw [← sources] at arguments
      exact arguments _ b rfl rfl
    · exact touched.arguments a b pair' (by simp [same, closed])

end Working

end Copy

end Modelica
