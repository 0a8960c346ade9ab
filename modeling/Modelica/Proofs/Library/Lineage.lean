import Modelica.Proofs.Library.Reproduced

set_option autoImplicit false

namespace Modelica

open Outline

namespace Library

-- Whatever is named in the library is there, and what is copied in place of an entry is copied itself.
def Whole (lib : Library) : Prop := lib.Region lib.Has

structure Follows (lib next : Library) : Prop where
  whole : next.Whole
  has : ∀ e, lib.Has e → next.Has e
  source : ∀ e, lib.Has e → next.sourceOf e = lib.sourceOf e

structure Fits (lib : Library) (x : Entry) : Prop where
  leads : ∀ y, lib.Leads x y → lib.Has y
  parent : ∀ c p, x = .class_ c → (lib.classOf c).parent = some p → lib.Has (.class_ p)
  imports : ∀ c, x = .class_ c → ∀ i ∈ (lib.classOf c).imports, i.component.bare = true
  bases : ∀ c, x = .class_ c → ∀ e ∈ (lib.classOf c).extends_, e.component.bare = true

variable {lib now next : Library} {x : Entry}

theorem Follows.refl (whole : lib.Whole) : lib.Follows lib := ⟨whole, fun _ => id, fun _ _ => rfl⟩

theorem Follows.trans (first : lib.Follows now) (second : now.Follows next) : lib.Follows next :=
  ⟨second.whole, fun e has => second.has e (first.has e has),
    fun e has => (second.source e (first.has e has)).trans (first.source e has)⟩

theorem Whole.fits (whole : lib.Whole) (has : lib.Has x) : lib.Fits x where
  leads y := whole.closed x y has
  parent c p same := whole.parent c p (same ▸ has)
  imports c same := whole.imports c (same ▸ has)
  bases c same := whole.bases c (same ▸ has)

theorem SameAt.sourceOf (same : lib.SameAt next x) : next.sourceOf x = lib.sourceOf x := by
  cases x with
  | class_ c => exact congrArg (fun d : ClassDef => Entry.class_ d.origin) same
  | argument a => exact congrArg (fun d : Argument => Entry.argument d.origin) same
  | symbol _ | modification _ => rfl

theorem SameAt.fits (same : lib.SameAt next x) (more : ∀ y, lib.Has y → next.Has y)
    (fits : lib.Fits x) : next.Fits x where
  leads y leads := more y (fits.leads y (by rwa [Leads, ← same.outlineOf]))
  parent c p is parent := by
    subst is
    rw [same] at parent
    exact more _ (fits.parent c p rfl parent)
  imports c is := by
    subst is
    rw [same]
    exact fits.imports c rfl
  bases c is := by
    subst is
    rw [same]
    exact fits.bases c rfl

theorem sourceOf_of_absent (lib : Library) (x : Entry) (absent : ¬ lib.Has x) : lib.sourceOf x = x := by
  cases x with
  | class_ c =>
    have none : lib.classes[c.index]? = none := Array.getElem?_eq_none (not_lt.1 absent)
    simp [sourceOf, originOf, Library.classOf, none]
  | argument a =>
    have none : lib.arguments[a.index]? = none := Array.getElem?_eq_none (not_lt.1 absent)
    simp [sourceOf, Library.argumentOf, none]
  | symbol _ | modification _ => rfl

theorem Whole.of_fits (fits : ∀ x, lib.Has x → lib.Fits x) (source : ∀ x, lib.Has x → lib.Has (lib.sourceOf x))
    (settled : ∀ x, lib.Has x → lib.sourceOf (lib.sourceOf x) = lib.sourceOf x) : lib.Whole where
  has _ := id
  closed x y has := (fits x has).leads y
  source := source
  settled := settled
  parent c p has := (fits _ has).parent c p rfl
  imports c has := (fits _ has).imports c rfl
  bases c has := (fits _ has).bases c rfl

theorem Whole.touch (whole : lib.Whole) (touches : lib.Touches next x)
    (source : next.sourceOf x = lib.sourceOf x) (fits : next.Fits x) : lib.Follows next := by
  have sources : ∀ e, lib.Has e → next.sourceOf e = lib.sourceOf e := by
    intro e has
    by_cases same : e = x
    · rw [same, source]
    · exact (touches.same e has same).sourceOf
  refine ⟨.of_fits (fun e has => ?_) (fun e has => ?_) fun e has => ?_, touches.has, sources⟩
  · by_cases same : e = x
    · exact same ▸ fits
    · have old := (touches.only e has).resolve_right same
      exact (touches.same e old same).fits touches.has (whole.fits old)
  · by_cases old : lib.Has e
    · rw [sources e old]
      exact touches.has _ (whole.source e old)
    · obtain rfl := (touches.only e has).resolve_left old
      rwa [source, sourceOf_of_absent lib e old]
  · by_cases old : lib.Has e
    · rw [sources e old, sources _ (whole.source e old), whole.settled e old]
    · obtain rfl := (touches.only e has).resolve_left old
      rw [source, sourceOf_of_absent lib e old, source, sourceOf_of_absent lib e old]

end Library

namespace Copy

open Library

theorem run'_noted {α : Type} (x : Copying α) (g : α → Memo → Memo) (lib : Library) :
    (do let a ← x; modify (g a); return a : Copying α).run' {} lib = x.run' {} lib := by
  show EStateM.map Prod.fst (EStateM.bind (x.run {}) _) lib = EStateM.map Prod.fst (x.run {}) lib
  unfold EStateM.map EStateM.bind
  cases x.run {} lib <;> rfl

theorem run'_congr {α : Type} {x y : Copying α} {lib : Library}
    (same : x.run {} lib = y.run {} lib) : x.run' {} lib = y.run' {} lib := by
  show EStateM.map Prod.fst (x.run {}) lib = EStateM.map Prod.fst (y.run {}) lib
  unfold EStateM.map
  rw [same]

theorem run'_copyClass (fuel : Nat) (c : ClassId) (lib : Library) :
    (copyClass (fuel + 1) c).run' {} lib = (copyOrigin fuel (lib.originOf c)).run' {} lib := by
  refine Eq.trans (run'_congr ?_) (run'_noted _ (fun d memo =>
    if d = c then memo else { memo with classes := (c, d) :: memo.classes }) lib)
  unfold copyClass
  show EStateM.bind ((copyOrigin fuel (lib.originOf c)).run {}) _ lib =
    EStateM.bind ((copyOrigin fuel (lib.originOf c)).run {}) _ lib
  unfold EStateM.bind
  cases (copyOrigin fuel (lib.originOf c)).run {} lib with
  | error e next => rfl
  | ok r next =>
    obtain ⟨d, memo⟩ := r
    by_cases same : d = c
    · simp only [if_pos same]
      rfl
    · simp only [if_neg same]
      rfl

def copyFirst (fuel : Nat) (o : ArgumentId) : Copying ArgumentId := do
  let d ← lift (Build.argumentOf o)
  let a ← lift (Build.addArgument d.value none d.redeclare)
  noteArgument o a
  let value ← copyArgumentValue fuel d.value
  lift (Build.updateArgument a fun e => { e with value := value })
  lift (Build.updateArgument a fun e => { e with scope := d.scope, origin := o })
  return a

theorem run'_copyArgument (fuel : Nat) (a : ArgumentId) (lib : Library) : (copyArgument (fuel + 1) a).run' {} lib =
      (copyFirst fuel (lib.argumentOf a).origin).run' {} lib := by
  refine Eq.trans (run'_congr ?_) (run'_noted _ (fun b memo => { memo with arguments := (a, b) :: memo.arguments }) lib)
  unfold copyArgument copyFirst
  simp only [bind_assoc, pure_bind]
  rfl
end Copy

namespace Copy.Working

open Library

variable {lib next : Library} {memo : Memo} {limit : Nat}

section

variable (working : Working lib True [] [] limit memo next)
include working

theorem fits_new (whole : lib.Whole) {e x : Entry} (pair : memo.Pairs lib True e x)
    (new : ¬ lib.Has x) : next.Fits x := by
  have more : ∀ y, lib.Has y → next.Has y := fun y has => (working.added y has).1
  have known := working.known e x pair new
  refine ⟨fun y leads => ?_, fun d p is parent => ?_, fun d is => ?_, fun d is => ?_⟩
  · have alike := working.done e x pair new List.not_mem_nil memo (.refl memo)
    obtain ⟨e', -, pair'⟩ := exists_of_mem_entries _ _ alike y leads
    exact (working.new e' y pair').1
  all_goals
    subst is
    cases e with
    | symbol _ | modification _ | argument _ => exact pair.elim
    | class_ c => ?_
  all_goals
    have framed := (working.kept _ _ pair).2 new
    have source := whole.source _ known
  · rw [framed.parent] at parent
    exact more _ (whole.parent _ p source parent)
  · rw [framed.imports]
    exact whole.imports _ source
  · intro clause member
    have listed : clause.component ∈ (next.classOf d).bases := List.mem_map_of_mem member
    rw [framed.bases] at listed
    obtain ⟨original, member, same⟩ := List.mem_map.1 listed
    rw [← same]
    exact whole.bases _ source original member

theorem source_new {e x : Entry} (pair : memo.Pairs lib True e x) (new : ¬ lib.Has x) :
    next.sourceOf x = x ∨ next.sourceOf x = lib.sourceOf e := by
  cases x with
  | symbol _ | modification _ => exact .inl rfl
  | class_ d =>
    cases e with
    | class_ c => exact .inr (congrArg Entry.class_ (working.kept _ _ pair).1)
    | symbol _ | modification _ | argument _ => exact pair.elim
  | argument b =>
    cases e with
    | argument a => exact .inr (congrArg Entry.argument (working.arguments a b pair List.not_mem_nil).1)
    | class_ _ | symbol _ | modification _ => exact pair.elim

theorem follows (whole : lib.Whole) : lib.Follows next := by
  have more : ∀ y, lib.Has y → next.Has y := fun y has => (working.added y has).1
  have sources : ∀ y, lib.Has y → next.sourceOf y = lib.sourceOf y := fun y has => (working.added y has).2.sourceOf
  have paired : ∀ x, next.Has x → ¬ lib.Has x → ∃ e, memo.Pairs lib True e x := by
    intro x has new
    obtain old | opened | paired := working.all x has
    · exact (new old).elim
    · exact (List.not_mem_nil opened).elim
    · exact paired
  refine ⟨.of_fits (fun x has => ?_) (fun x has => ?_) fun x has => ?_, more, sources⟩
  all_goals by_cases old : lib.Has x
  · exact (working.added x old).2.fits more (whole.fits old)
  · obtain ⟨e, pair⟩ := paired x has old
    exact working.fits_new whole pair old
  · rw [sources x old]
    exact more _ (whole.source x old)
  · obtain ⟨e, pair⟩ := paired x has old
    obtain same | same := working.source_new pair old
    · rwa [same]
    · rw [same]
      exact more _ (whole.source e (working.known e x pair old))
  · rw [sources x old, sources _ (whole.source x old), whole.settled x old]
  · obtain ⟨e, pair⟩ := paired x has old
    obtain same | same := working.source_new pair old
    · rw [same, same]
    · have known := working.known e x pair old
      rw [same, sources _ (whole.source e known), whole.settled e known]

end

end Copy.Working

namespace Build

open Library

variable {lib : Library} {a : ArgumentId}

theorem copyClass_follows (whole : lib.Whole) {c : ClassId} (known : lib.Has (.class_ c)) :
    (copyClass c).Returns lib fun n next =>
      lib.Follows next ∧ next.Has (.class_ n) ∧ next.originOf n = lib.originOf c := by
  unfold copyClass Copy.fuelFor
  rw [Returns, bind_get, ensures_bind]
  have copied := (Copy.faithful whole (.inl trivial) _).classes [] [] lib.size c
    (.of_shared trivial known) le_rfl {} lib (.empty lib True [])
  refine copied.imp ?_
  rintro ⟨n, memo⟩ next ⟨working, -, right⟩
  have pair := right memo (.refl memo)
  exact (ensures_pure n).2 ⟨working.follows whole, (working.new _ _ pair).1, (working.kept _ _ pair).1⟩

def copyArgument (id : ArgumentId) : Build ArgumentId := do
  let (a, _) ← (Copy.copyArgument (Copy.fuelFor (← get)) id).run {}
  return a

theorem copyArgument_follows (whole : lib.Whole) (known : lib.Has (.argument a)) :
    (copyArgument a).Returns lib fun b next =>
      lib.Follows next ∧ (next.argumentOf b).origin = (lib.argumentOf a).origin ∧
        (next.argumentOf b).scope = (lib.argumentOf (lib.argumentOf a).origin).scope := by
  unfold copyArgument Copy.fuelFor
  rw [Returns, bind_get, ensures_bind]
  have copied := (Copy.faithful whole (.inl trivial) _).arguments [] [] lib.size a known
    le_rfl {} lib (.empty lib True [])
  refine copied.imp ?_
  rintro ⟨b, memo⟩ next ⟨working, -, right⟩
  exact (ensures_pure b).2 ⟨working.follows whole, working.arguments a b (right memo (.refl memo)) List.not_mem_nil⟩

theorem copyArgument_mirror {root : ClassId} (tree : lib.Tree root)
    (inside : lib.Reaches (.class_ root) (.argument a)) : (copyArgument a).Returns lib fun b next =>
      ∃ R, lib.Mirror next R ∧ R (.argument a) (.argument b) := by
  unfold copyArgument Copy.fuelFor
  rw [Returns, bind_get, ensures_bind]
  have copied := (Copy.faithful (tree.region inside) (.inr (tree.written inside)) _).arguments [] []
    lib.size a .refl le_rfl {} lib (.empty lib False [])
  refine copied.imp ?_
  rintro ⟨b, memo⟩ next ⟨working, -, right⟩
  exact (ensures_pure b).2 ⟨memo.Pairs lib False, working.mirror, right memo (.refl memo)⟩

theorem copyArgument_origin (lib : Library) (a : ArgumentId)
    (settled : (lib.argumentOf (lib.argumentOf a).origin).origin = (lib.argumentOf a).origin) :
    copyArgument a lib = copyArgument (lib.argumentOf a).origin lib := by
  have eq : ∀ b, copyArgument b lib = (Copy.copyFirst (2 * lib.size + 1) (lib.argumentOf b).origin).run' {} lib := by
    intro b
    rw [← Copy.run'_copyArgument]
    rfl
  rw [eq, eq, settled]

theorem copyClass_origin (lib : Library) (c : ClassId) (settled : lib.originOf (lib.originOf c) = lib.originOf c) :
    copyClass c lib = copyClass (lib.originOf c) lib := by
  have eq : ∀ d, copyClass d lib = (Copy.copyOrigin (2 * lib.size + 1) (lib.originOf d)).run' {} lib := by
    intro d
    rw [← Copy.run'_copyClass]
    rfl
  rw [eq, eq, settled]

end Build

end Modelica
