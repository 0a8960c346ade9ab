import Modelica.Proofs.Library.Resolved
import Modelica.Proofs.Library.Settled

set_option autoImplicit false

namespace Modelica

namespace Library

structure Remembers (lib next : Library) : Prop where
  moreArguments : lib.arguments.size ≤ next.arguments.size
  argumentOf : ∀ a, a.index < lib.arguments.size → next.argumentOf a = lib.argumentOf a

theorem Remembers.of_eq {lib next : Library} (same : next.arguments = lib.arguments) : lib.Remembers next := by
  refine ⟨Nat.le_of_eq (congrArg Array.size same).symm, fun a _ => ?_⟩
  unfold Library.argumentOf
  rw [same]

structure Alike (lib next : Library) : Prop where
  symbols : next.symbols = lib.symbols
  modifications : next.modifications = lib.modifications

structure Argued (lib next : Library) : Prop extends lib.Remembers next, lib.Alike next

namespace Argued

variable {lib now next : Library}

theorem refl (lib : Library) : lib.Argued lib := ⟨⟨le_rfl, fun _ _ => rfl⟩, rfl, rfl⟩

theorem trans (first : lib.Argued now) (second : now.Argued next) : lib.Argued next where
  symbols := second.symbols.trans first.symbols
  modifications := second.modifications.trans first.modifications
  moreArguments := first.moreArguments.trans second.moreArguments
  argumentOf a known := (second.argumentOf a (known.trans_le first.moreArguments)).trans (first.argumentOf a known)

theorem pushArgument (lib : Library) (d : Argument) : lib.Argued (lib.pushArgument d) where
  symbols := rfl
  modifications := rfl
  moreArguments := by
    rw [arguments_size_pushArgument]
    exact Nat.le_succ _
  argumentOf a known := argumentOf_pushArgument_ne lib a d known.ne

end Argued

theorem Alike.modificationOf {lib next : Library} (alike : lib.Alike next) (m : ModificationId) :
    next.modificationOf m = lib.modificationOf m := by
  unfold Library.modificationOf
  rw [alike.modifications]

theorem Alike.modifiersOf {lib next : Library} (alike : lib.Alike next) (s : SymbolId) :
    next.modifiersOf s = lib.modifiersOf s := by
  unfold Library.modifiersOf Library.modificationOf Library.symbolOf
  rw [alike.symbols, alike.modifications]

-- The arguments by which changes become changes of attributes: those in brackets as they are, and a new one for
-- each value, which is written where the whole is.
inductive Adds (lib : Library) (scope : Option ClassId) (next : Library) :
    List Expr → List ArgumentId → Prop where
  | nil : Adds lib scope next [] []
  | brackets {m : ModificationId} {changes : List Expr} {as : List ArgumentId}
      (rest : Adds lib scope next changes as) :
      Adds lib scope next (.modification m :: changes) ((lib.modificationOf m).arguments ++ as)
  | value {e : Expr} {b : ArgumentId} {changes : List Expr} {as : List ArgumentId}
      (known : b.index < next.arguments.size)
      (new : next.argumentOf b = ⟨.element (.simple "value") [e], scope, false, b⟩)
      (rest : Adds lib scope next changes as) : Adds lib scope next (e :: changes) (b :: as)

inductive AddsAll (lib next : Library) : List ArgumentId → List ArgumentId → Prop where
  | nil : AddsAll lib next [] []
  | cons {a : ArgumentId} {r : ComponentRef} {changes : List Expr} {rest as bs : List ArgumentId}
      (value : (lib.argumentOf a).value = .element r changes)
      (adds : Adds lib (lib.argumentOf a).scope next changes as)
      (more : AddsAll lib next rest bs) : AddsAll lib next (a :: rest) (as ++ bs)

variable {lib now next : Library} {scope : Option ClassId}

variable {changes : List Expr} {as bs : List ArgumentId}

theorem Adds.later (adds : Adds lib scope now changes as) (more : now.Remembers next) :
    Adds lib scope next changes as := by
  induction adds with
  | nil => exact .nil
  | brackets _ ih => exact .brackets ih
  | value known new _ ih =>
    refine .value (known.trans_le more.moreArguments) ?_ ih
    rw [more.argumentOf _ known, new]

theorem Adds.since (argued : lib.Argued now) (adds : Adds now scope next changes as) :
    Adds lib scope next changes as := by
  induction adds with
  | nil => exact .nil
  | brackets _ ih =>
    rw [argued.toAlike.modificationOf]
    exact .brackets ih
  | value known new _ ih => exact .value known new ih

theorem Adds.append {first second : List Expr} (adds : Adds lib scope next first as)
    (more : Adds lib scope next second bs) : Adds lib scope next (first ++ second) (as ++ bs) := by
  induction adds with
  | nil => exact more
  | brackets _ ih =>
    rw [List.append_assoc]
    exact .brackets ih
  | value known new _ ih => exact .value known new ih

theorem AddsAll.later {own : List ArgumentId} (adds : AddsAll lib now own as)
    (more : now.Remembers next) : AddsAll lib next own as := by
  induction adds with
  | nil => exact .nil
  | cons value adds _ ih => exact .cons value (adds.later more) ih

theorem AddsAll.append {first second : List ArgumentId} (adds : AddsAll lib next first as)
    (more : AddsAll lib next second bs) : AddsAll lib next (first ++ second) (as ++ bs) := by
  induction adds with
  | nil => exact more
  | cons value adds _ ih =>
    rw [List.append_assoc]
    exact .cons value adds ih

end Library

namespace Library

variable {hidden : Hidden} {lib next : Library}

-- A class goes back to a built-in type.
def goesBack (lib : Library) : Nat → ClassId → Bool
  | 0, _ => false
  | fuel + 1, c => (lib.classOf c).bases.any fun r =>
    elementaryNames.contains r.name || (lib.findClass? c r.names).any (lib.goesBack fuel)

theorem goesBack_twins (sound : lib.Sound hidden) (fuel : Nat) (c d : ClassId)
    (first : c.In lib) (second : d.In lib)
    (same : lib.originOf c = lib.originOf d) : lib.goesBack fuel c = lib.goesBack fuel d := by
  induction fuel generalizing c d with
  | zero => rfl
  | succ fuel ih =>
    unfold goesBack
    rw [(twins_of_originOf sound first second same).bases]
    congr 1
    funext r
    congr 1
    obtain ⟨inC, inD⟩ | ⟨e, e', inC, inD, origins⟩ :=
      both_of_map_eq (findClass?_twins sound first second same r.names)
    · rw [inC, inD]
    · rw [inC, inD]
      exact ih e e' (open_findClass? sound _ c e (names_ne_nil r) inC).1
        (open_findClass? sound _ d e' (names_ne_nil r) inD).1 origins

theorem goesBack_grown (sound : lib.Sound hidden) (grown : lib.Grown next) (fuel : Nat)
    (c : ClassId) (known : c.In lib) : next.goesBack fuel c = lib.goesBack fuel c := by
  induction fuel generalizing c with
  | zero => rfl
  | succ fuel ih =>
    unfold goesBack
    rw [grown.classOf c known]
    congr 1
    funext r
    congr 1
    rw [findClass?_grown sound grown r.names c known]
    cases found : lib.findClass? c r.names with
    | none => rfl
    | some e => exact ih e (open_findClass? sound _ c e (names_ne_nil r) found).1

end Library

namespace Build

open Library

variable {lib next merged : Library} {hidden : Hidden} {w : ModificationId} {s : SymbolId}
  {fuel : Nat} {given k : ClassId} {yields : Yield}

theorem elementOf_ensures (a : ArgumentId) {good : ComponentRef × List Expr → Library → Prop} :
    (elementOf a).Ensures lib good (fun _ _ => True) ↔
      ∀ r changes, (lib.argumentOf a).value = .element r changes → good (r, changes) lib := by
  unfold elementOf
  rw [bind_argumentOf]
  split
  · next r changes has =>
    rw [ensures_pure]
    refine ⟨fun holds r' changes' same => ?_, fun all => all r changes has⟩
    cases has.symm.trans same
    exact holds
  · next other =>
    exact ⟨fun _ r changes has => absurd has (other r changes), fun _ => .throw⟩

theorem attributeArguments_adds (lib : Library) (a : ArgumentId) :
    (attributeArguments a).Ensures lib (fun as next => lib.Argued next ∧
      ∃ r changes, (lib.argumentOf a).value = .element r changes ∧
        Adds lib (lib.argumentOf a).scope next changes as) anyhow := by
  unfold attributeArguments
  rw [ensures_bind, elementOf_ensures]
  intro r changes has
  dsimp only
  rw [bind_argumentOf]
  refine (ensures_forIn _ _ _ (fun done as next => lib.Argued next ∧
    Adds lib (lib.argumentOf a).scope next done as) ⟨.refl lib, .nil⟩ ?_ fun _ _ => id).bind
    fun as next ⟨argued, adds⟩ => .pure ⟨argued, r, changes, has, adds⟩
  rintro done change rest as now _ ⟨argued, adds⟩
  split
  · next m _ =>
    rw [ensures_bind, ensures_argumentsOf, ensures_pure, argued.toAlike.modificationOf]
    refine ⟨argued, adds.append ?_⟩
    have single : Adds lib (lib.argumentOf a).scope now [.modification m]
        ((lib.modificationOf m).arguments ++ []) := .brackets .nil
    rwa [List.append_nil] at single
  · next e _ =>
    rw [ensures_bind, ensures_addArgument, ensures_pure]
    have further := Argued.pushArgument now
      ⟨.element (.simple "value") [change], (lib.argumentOf a).scope, false, now.nextArgument⟩
    refine ⟨argued.trans further, (adds.later further.toRemembers).append (.value ?_ ?_ .nil)⟩
    · exact nextArgument_lt ..
    · exact argumentOf_pushArgument_self now _

theorem plainModifier_ensures (a : ArgumentId) :
    (plainModifier a).Ensures lib (fun _ next => lib = next) anyhow := by
  unfold plainModifier
  rw [ensures_bind, elementOf_ensures]
  intro r changes _
  dsimp only
  split
  · exact .pure rfl
  · exact .throw

theorem componentArguments_builtin (lib : Library) (own : List ArgumentId)
    (known : ∀ a ∈ own, a.In lib) :
    (componentArguments true own).Ensures lib (fun as next => lib.Argued next ∧
      AddsAll lib next own as) anyhow := by
  unfold componentArguments
  refine (ensures_forIn _ _ _ (fun done as next => lib.Argued next ∧ AddsAll lib next done as)
    ⟨.refl lib, .nil⟩ ?_ fun _ _ => id).bind fun as next holds => .pure holds
  rintro done a rest as now all ⟨argued, adds⟩
  have there := known a (by simp [all])
  refine (plainModifier_ensures a).bind ?_
  rintro _ _ rfl
  rw [if_pos rfl]
  refine (attributeArguments_adds now a).bind ?_
  rintro bs next ⟨further, r, changes, has, more⟩
  rw [ensures_pure]
  refine ⟨argued.trans further, (adds.later further.toRemembers).append ?_⟩
  rw [argued.argumentOf a there] at has more
  have single : AddsAll lib next [a] (bs ++ []) := .cons has (more.since argued) .nil
  rwa [List.append_nil] at single

def Shifted (lib next : Library) (own : List ArgumentId) : Prop :=
  ∀ a ∈ own, ∃ r c changes, (lib.argumentOf a).value = .element r changes ∧ r.child = some c ∧
    (own.Nodup → (next.argumentOf a).value = .element c changes)

theorem shiftArgument_ensures (lib : Library) (a : ArgumentId) :
    (shiftArgument a).Ensures lib (fun _ next => ∃ r c changes,
      (lib.argumentOf a).value = .element r changes ∧ r.child = some c ∧
        next = lib.modifyArgument a fun d => { d with value := .element c changes })
      anyhow := by
  unfold shiftArgument
  rw [ensures_bind, elementOf_ensures]
  intro r changes has
  dsimp only
  split
  · exact .throw
  · next c child => exact (ensures_updateArgument a _).2 ⟨r, c, changes, has, child, rfl⟩

theorem componentArguments_class (lib : Library) (own : List ArgumentId)
    (known : ∀ a ∈ own, a.In lib) :
    (componentArguments false own).Ensures lib (fun as next => as = own ∧ lib.Alike next ∧
      Shifted lib next own) anyhow := by
  unfold componentArguments
  refine (ensures_forIn _ _ _ (fun done as next => as = done ∧ lib.Alike next ∧
    next.arguments.size = lib.arguments.size ∧ Shifted lib next done ∧
    ∀ a, a ∉ done → next.argumentOf a = lib.argumentOf a)
    ⟨rfl, ⟨rfl, rfl⟩, rfl, nofun, fun _ _ => rfl⟩ ?_ fun _ _ => id).bind
    fun as next ⟨same, alike, _, shifted, _⟩ => .pure ⟨same, alike, shifted⟩
  rintro done a rest as now all ⟨rfl, alike, size, shifted, others⟩
  have there := known a (by simp [all])
  refine (plainModifier_ensures a).bind ?_
  rintro _ _ rfl
  rw [if_neg (by decide)]
  refine (shiftArgument_ensures now a).bind ?_
  rintro _ _ ⟨r, c, changes, has, child, rfl⟩
  rw [ensures_pure]
  have here := argumentOf_modifyArgument_self now a (fun d => { d with value := .element c changes }) (size ▸ there)
  have apart := fun b other => argumentOf_modifyArgument_ne now a b
    (fun d => { d with value := .element c changes }) other
  refine ⟨rfl, ⟨alike.symbols, alike.modifications⟩, by rw [arguments_size_modifyArgument, size],
    fun b member => ?_, fun b fresh => ?_⟩
  · by_cases before : b ∈ as
    · obtain ⟨r, c, changes, has, child, handed⟩ := shifted b before
      refine ⟨r, c, changes, has, child, fun unique => ?_⟩
      obtain ⟨first, _, disjoint⟩ := List.nodup_append.1 unique
      have other : a ≠ b := (disjoint b before a List.mem_cons_self).symm
      rw [apart b other, handed first]
    · obtain rfl : b = a := by simpa [before] using member
      rw [others b before] at has
      exact ⟨r, c, changes, has, child, fun _ => by rw [here]⟩
  · rw [List.mem_append, not_or] at fresh
    rw [apart b fun same => fresh.2 (by simp [same]), others b fresh.1]

theorem extendsBuiltin_goesBack (fuel : Nat) (lib : Library) (sound : lib.Sound hidden)
    (c : ClassId) (known : c.In lib) :
    (extendsBuiltin fuel c).Ensures lib (fun b next => next.Sound hidden ∧
      lib.Onward hidden next ∧ lib.Extended next ∧ b = lib.goesBack fuel c) anyhow := by
  induction fuel generalizing lib c with
  | zero => exact .throw
  | succ fuel ih =>
    unfold extendsBuiltin
    rw [bind_classOf, ensures_bind]
    refine ensures_forIn _ _ _ (fun done result now => now.Sound hidden ∧ lib.Onward hidden now ∧
      lib.Extended now ∧ result = (none, (done.map (·.component)).any fun r => elementaryNames.contains r.name ||
        (lib.findClass? c r.names).any (lib.goesBack fuel)))
      ⟨sound, .refl _ lib, .refl lib, rfl⟩ ?_ ?_
    · rintro done clause rest _ now all ⟨sound', onward, ext, rfl⟩
      have there := onward.known known
      dsimp only
      rw [ensures_bind, ensures_tryCatch, ensures_map]
      refine ((instantiable_sound now sound' c clause.component).and
        (instantiable_extends now c clause.component)).mono ?_ ?_
      · rintro e next ⟨⟨sound'', further, opened, other, stands⟩, copied⟩
        obtain ⟨d, found, origin⟩ := Option.map_eq_some_iff.1 stands
        have inside := (open_findClass? sound' _ c d (names_ne_nil _) found).1
        rw [findClass?_grown sound onward.toGrown _ c known] at found
        have inLib := (open_findClass? sound _ c d (names_ne_nil _) found).1
        have same : next.goesBack fuel e = lib.goesBack fuel d := by
          rw [goesBack_twins sound'' fuel e d opened.1 (further.known inside)
            (by rw [← origin, further.originOf d inside]),
            goesBack_grown sound (onward.trans further).toGrown fuel d inLib]
        dsimp only
        refine (ih next sound'' e opened.1).bind ?_
        rintro back last ⟨sound, final, copies, backs⟩
        rw [same] at backs
        have whole := (onward.trans further).trans final
        have step : (elementaryNames.contains clause.component.name ||
            (lib.findClass? c clause.component.names).any (lib.goesBack fuel)) = back := by
          rw [other, found, backs]
          rfl
        cases back <;>
        · refine .pure ⟨sound, whole, (ext.trans copied).trans copies, ?_⟩
          simp only [List.map_append, List.map_cons, List.map_nil, List.any_append, List.any_cons,
            List.any_nil, step, Bool.or_false, Bool.or_true]
      · rintro e next ⟨_, why⟩
        split
        · obtain ⟨rfl, elementary⟩ := why rfl
          rw [ensures_pure]
          refine .pure (.pure ⟨sound', onward, ext, ?_⟩)
          unfold Library.goesBack ClassDef.bases
          rw [all]
          simp only [List.map_append, List.map_cons, List.any_append, List.any_cons, elementary,
            Bool.true_or, Bool.or_true]
        · exact .throw
    · rintro _ now ⟨sound, onward, ext, rfl⟩
      exact .pure ⟨sound, onward, ext, by unfold Library.goesBack ClassDef.bases; rfl⟩

structure Hands (name : String) (s : SymbolId) (builtin : Bool) (lib next : Library)
    (taken : List ArgumentId) : Prop where
  concerns : ∀ a ∈ taken, (lib.argumentOf a).concerns name = true
  handed : ∃ m handed, (next.symbolOf s).modification = some m ∧
    (next.modificationOf m).arguments = lib.modifiersOf s ++ handed ∧
    if builtin then AddsAll lib next taken handed else handed = taken ∧ Shifted lib next taken

structure Fits (s : SymbolId) (lib next : Library) : Prop where
  there : s.index < next.symbols.size
  type : (next.symbolOf s).type = (lib.symbolOf s).type
  known : ∀ m, (next.symbolOf s).modification = some m → m.index < next.modifications.size

theorem modifyMore_ensures (lib : Library) (s : SymbolId) (as : List ArgumentId) (there : s.index < lib.symbols.size)
    (known : ∀ m, (lib.symbolOf s).modification = some m → m.index < lib.modifications.size) :
    (modifyMore s as).Ensures lib (fun _ next => next.arguments = lib.arguments ∧ Fits s lib next ∧
      ∃ m, (next.symbolOf s).modification = some m ∧
        (next.modificationOf m).arguments = lib.modifiersOf s ++ as) anyhow := by
  unfold modifyMore
  rw [bind_symbolOf]
  split
  · next m has =>
    refine (ensures_updateModification m _).2 ⟨rfl, ⟨there, rfl, fun n has => ?_⟩, m, has, ?_⟩
    · simpa using known n has
    · rw [modificationOf_modifyModification_self lib m _ (known m has), modifiersOf_of_some has]
  · next has =>
    have before : lib.modifiersOf s = [] := by simp only [modifiersOf, has]
    rw [ensures_bind, ensures_addModification, ensures_updateSymbol]
    have here := (symbolOf_modifySymbol_self (lib.pushModification as) s · there)
    refine ⟨rfl, ⟨?_, ?_, fun n has => ?_⟩, lib.nextModification, ?_, ?_⟩
    · rw [symbols_size_modifySymbol]
      exact there
    · rw [here]
      rfl
    · rw [here] at has
      cases has
      show _ < (lib.pushModification as).modifications.size
      exact nextModification_lt ..
    · rw [here]
    · rw [before]
      exact congrArg Modification.arguments (modificationOf_pushModification_self lib as)

theorem hand (lib : Library) (name : String) (s : SymbolId) (builtin : Bool)
    (taken : List ArgumentId) (there : s.In lib)
    (known : ∀ m, (lib.symbolOf s).modification = some m → m.In lib)
    (present : ∀ a ∈ taken, a.In lib)
    (concerns : ∀ a ∈ taken, (lib.argumentOf a).concerns name = true) :
    (do modifyMore s (← componentArguments builtin taken)).Ensures lib
      (fun _ next => Hands name s builtin lib next taken ∧ Fits s lib next) anyhow := by
  have more : ∀ now as, lib.Alike now → (if builtin then AddsAll lib now taken as
      else as = taken ∧ Shifted lib now taken) →
      (modifyMore s as).Ensures now (fun _ next => Hands name s builtin lib next taken ∧
        Fits s lib next) anyhow := by
    intro now as alike handed
    have same : now.symbolOf s = lib.symbolOf s := by
      unfold Library.symbolOf
      rw [alike.symbols]
    refine (modifyMore_ensures now s as (by rw [alike.symbols]; exact there) ?_).imp ?_
    · rw [same, alike.modifications]
      exact known
    · rintro _ next ⟨arguments, fits, m, has, list⟩
      rw [alike.modifiersOf] at list
      have remembers := Remembers.of_eq arguments
      refine ⟨⟨concerns, m, as, has, list, ?_⟩, { fits with type := same ▸ fits.type }⟩
      cases builtin with
      | true => exact AddsAll.later handed remembers
      | false =>
        refine ⟨handed.1, fun a member => ?_⟩
        obtain ⟨r, c, changes, value, child, gone⟩ := handed.2 a member
        refine ⟨r, c, changes, value, child, fun unique => ?_⟩
        unfold Library.argumentOf at gone ⊢
        rw [arguments]
        exact gone unique
  rw [ensures_bind]
  cases builtin with
  | true =>
    refine (componentArguments_builtin lib taken present).imp ?_
    rintro as now ⟨argued, adds⟩
    exact more now as argued.toAlike adds
  | false =>
    refine (componentArguments_class lib taken present).imp ?_
    rintro as now ⟨same, alike, shifted⟩
    exact more now as alike ⟨same, shifted⟩

theorem known_of_concerns {a : ArgumentId} {name : String} (named : name ≠ "")
    (concerns : (lib.argumentOf a).concerns name = true) : a.In lib := by
  by_contra unknown
  have blank : lib.argumentOf a = { value := .element default [], origin := a } := by
    simp [Library.argumentOf, not_lt.1 unknown]
  rw [blank] at concerns
  exact named (eq_of_beq concerns).symm

structure Aside (w : ModificationId) (s : SymbolId) (lib next : Library) : Prop where
  moreArguments : lib.arguments.size ≤ next.arguments.size
  moreModifications : lib.modifications.size ≤ next.modifications.size
  argumentOf : ∀ a, a.index < lib.arguments.size → next.argumentOf a = lib.argumentOf a
  modificationOf : ∀ m, m.index < lib.modifications.size → w ≠ m →
    next.modificationOf m = lib.modificationOf m
  modifiersOf : next.modifiersOf s = lib.modifiersOf s

theorem modifiersOf_extended (sound : lib.Sound hidden) (ext : lib.Extended next) (s : SymbolId)
    (known : s.In lib) : next.modifiersOf s = lib.modifiersOf s := by
  unfold modifiersOf
  rw [ext.symbolOf s known]
  split
  · next m has => rw [ext.modificationOf m ((sound.symbols s known).modification m has).1]
  · rfl

theorem Aside.extended {now : Library} (aside : Aside w s lib now) (sound : now.Sound hidden)
    (there : s.In now) (ext : now.Extended next) : Aside w s lib next where
  moreArguments := aside.moreArguments.trans ext.moreArguments
  moreModifications := aside.moreModifications.trans ext.moreModifications
  argumentOf a known := (ext.argumentOf a (known.trans_le aside.moreArguments)).trans (aside.argumentOf a known)
  modificationOf m known apart :=
    (ext.modificationOf m (known.trans_le aside.moreModifications)).trans (aside.modificationOf m known apart)
  modifiersOf := (modifiersOf_extended sound ext s there).trans aside.modifiersOf

-- The arguments of a modification are known to be written in the class `k`, unless it is known where they are
-- written.
structure Notes (k : ClassId) (m : ModificationId) (lib next : Library) : Prop
    extends lib.Alike next where
  size : next.arguments.size = lib.arguments.size
  argumentOf : ∀ a, a.index < lib.arguments.size → next.argumentOf a =
    if a ∈ (lib.modificationOf m).arguments then
      { lib.argumentOf a with scope := some ((lib.argumentOf a).scope.getD k) }
    else lib.argumentOf a

theorem noteScope_notes {m : ModificationId} (k : ClassId) (has : (lib.symbolOf s).modification = some m) :
    (noteScope k s).Ensures lib (fun _ next => Notes k m lib next) anyhow := by
  unfold noteScope
  rw [bind_symbolOf, has]
  refine (ensures_bind _ _).2 ((ensures_argumentsOf m).2 ?_)
  refine (ensures_forIn _ _ _ (fun done _ next => lib.Alike next ∧
    next.arguments.size = lib.arguments.size ∧ ∀ a, a.In lib →
      next.argumentOf a = if a ∈ done then
        { lib.argumentOf a with scope := some ((lib.argumentOf a).scope.getD k) }
      else lib.argumentOf a) ⟨⟨rfl, rfl⟩, rfl, fun _ _ => rfl⟩ ?_ fun _ _ => id).bind
    fun _ next ⟨alike, size, arguments⟩ => .pure ⟨alike, size, arguments⟩
  rintro done a rest ⟨⟩ now _ ⟨alike, size, arguments⟩
  rw [ensures_bind, ensures_updateArgument, ensures_pure]
  refine ⟨⟨alike.symbols, alike.modifications⟩, by rw [arguments_size_modifyArgument, size], fun b known => ?_⟩
  by_cases same : a = b
  · subst same
    rw [argumentOf_modifyArgument_self now a _ (size ▸ known), arguments a known, if_pos (by simp : a ∈ done ++ [a])]
    by_cases before : a ∈ done
    · rw [if_pos before]
      rfl
    · rw [if_neg before]
      generalize lib.argumentOf a = d
      cases d with
      | mk value scope redeclare origin => cases scope <;> rfl
  · have other : b ≠ a := fun equal => same equal.symm
    rw [argumentOf_modifyArgument_ne now a b _ same, arguments b known]
    simp [other]

def Always (yields : Yield) (build : Builder) : Prop :=
  ∀ (hidden : Hidden) given modification parent lib, lib.Sound hidden → lib.Open hidden given →
    (∀ p, parent = some p → p.index < lib.classes.size) →
    (build given modification parent).Ensures lib (fun k next => yields given modification parent lib k next)
      fun _ _ => True

inductive Goes (yields : Yield) (k : ClassId) (s : SymbolId) (now last : Library) : Option ClassId → Library → Prop
  | builtin {r : ComponentRef} (named : (now.symbolOf s).type = .named r)
      (elementary : elementaryNames.contains r.name = true) (fits : Fits s now last) :
      Goes yields k s now last none last
  | instance_ {m : ModificationId} {c t : ClassId} {start ended : Library}
      (has : (last.symbolOf s).modification = some m) (noted : noteScope k s last = .ok () start)
      (notes : Notes k m last start) (made : yields c (some m) (start.classOf c).parent start t ended) :
      Goes yields k s now last (some c)
        (ended.modifySymbol s fun d => { d with type := .instance_ t, modification := none })

theorem componentClass_extends (lib : Library) (k : ClassId) (s : SymbolId) :
    (componentClass k s).Ensures lib (fun _ next => lib.Extended next) anyhow := by
  unfold componentClass
  rw [bind_symbolOf]
  split
  · exact .pure (.refl lib)
  · exact .throw
  · next r _ =>
    rw [ensures_tryCatch, ensures_map]
    refine (instantiable_extends lib k r).mono (fun _ _ => id) fun e next why => ?_
    split
    · obtain ⟨rfl, _⟩ := why rfl
      exact .pure (.refl _)
    · exact .throw

namespace Stage

variable {hidden : Hidden} {lib now : Library} {k : ClassId} {own : Prop} {w : ModificationId}
  {parent : Option ClassId} {classes : OrderedMap (Option String) ClassId}
  {waiting : List ArgumentId}

theorem hands (stage : Stage hidden lib k own w parent now classes waiting now) (mine : own)
    {yields : Yield} {build : Builder} (always : Always yields build) (fuel : Nat)
    (given : ClassId) (name : String) (named : name ≠ "")
    (s : SymbolId) (listed : s ∈ (now.classOf k).symbols.values) :
    (Build.instantiateSymbol build fuel given k w name s).Ensures now (fun _ next =>
      ∃ found builtin mid last taken, openTurn fuel k w name s now = .ok (found, taken, builtin) mid ∧
        handOver s builtin taken mid = .ok () last ∧ Hands name s builtin mid last taken ∧ now.Recalls mid ∧
        Aside w s now mid ∧ taken.Sublist waiting ∧
        (∀ a ∈ waiting, a.In now → (now.argumentOf a).Plain →
          (now.argumentOf a).concerns name = true → a ∈ taken) ∧
        (∀ r, (now.symbolOf s).type = .named r → builtin = (elementaryNames.contains r.name ||
          (now.findClass? k r.names).any (now.goesBack fuel))) ∧
        Goes yields k s now last found next) anyhow := by
  have start := stage
  unfold Build.instantiateSymbol
  refine (((componentClass_sound now stage.sound k s).and (componentClass_extends now k s)).mono
    (fun _ _ => id) fun _ _ _ => trivial).ran.bind ?_
  rintro found now₁ ⟨⟨⟨sound, onward, names⟩, extended⟩, finds⟩
  replace stage := stage.after sound onward
  -- the arguments that wait for the component, when they are taken out
  have list : (now₁.modificationOf w).arguments = waiting := stage.waits mine
  let concerned := waiting.filter fun a => (now₁.argumentOf a).concerns name
  have sublist : concerned.Sublist waiting := List.filter_sublist
  have all : ∀ a ∈ waiting, a.In now → (now.argumentOf a).Plain →
      (now.argumentOf a).concerns name = true → a ∈ concerned := by
    intro a member known plain concerns
    refine List.mem_filter.2 ⟨member, ?_⟩
    rw [← concerns]
    unfold Argument.concerns
    rw [(onward.follows a known).value_eq plain.value]
  have present : ∀ a ∈ concerned, a.In now₁ := fun a member =>
    known_of_concerns named (List.mem_filter.1 member).2
  have there : ∀ {next : Library} {left : List ArgumentId},
      Stage hidden lib k own w parent now classes left next → s.In next :=
    fun stage => (stage.sound.closed k).symbols s (by rw [stage.symbols]; exact listed)
  have aside : ∀ f, Aside w s now (now₁.modifyModification w f) := by
    intro f
    have others := fun m apart => modificationOf_modifyModification_ne now₁ w m f apart
    have sizes := modifications_size_modifyModification now₁ w f
    refine ⟨extended.moreArguments, sizes ▸ extended.moreModifications, extended.argumentOf,
      fun m known apart => (others m apart).trans (extended.modificationOf m known), ?_⟩
    rw [← modifiersOf_extended start.sound extended s (there start)]
    have same : (now₁.modifyModification w f).symbolOf s = now₁.symbolOf s := rfl
    unfold modifiersOf
    rw [same]
    cases has : (now₁.symbolOf s).modification with
    | none => rfl
    | some m =>
      have free := (sound.symbol s).modification m has
      exact congrArg Modification.arguments (others m fun same => free.2 (.inr ⟨mine, same.symm⟩))
  split
  · refine (stage.takeArguments name).ran.bind ?_
    rintro taken now₂ ⟨⟨stage, moved, own'⟩, takes⟩
    rw [list] at own'
    subst own' moved
    refine (hand _ name s true _ (there stage) (fun m has => ((stage.sound.symbol s).modification m has).1) present
      fun a member => (List.mem_filter.1 member).2).ran.imp ?_
    rintro _ next ⟨⟨hands, fits⟩, passes_⟩
    obtain ⟨r', has', elementary⟩ := names
    have same : now₁.symbolOf s = now.symbolOf s := extended.symbolOf s (there start)
    refine ⟨none, true, _, next, _, (bind_of_run finds).trans (bind_of_run takes), passes_, hands, stage.recalls, aside _,
      sublist, all, fun r has => ?_,
      .builtin has' elementary { fits with type := same ▸ fits.type }⟩
    cases has.symm.trans has'
    rw [elementary]
    rfl
  · next c =>
    obtain ⟨opened, names⟩ := names
    refine (stage.takeArguments name).ran.bind ?_
    rintro taken now₂ ⟨⟨stage, moved, own'⟩, takes⟩
    rw [list] at own'
    subst own' moved
    have sound₂ := stage.sound
    have there₂ := there stage
    refine (extendsBuiltin_goesBack fuel _ stage.sound c opened.1).ran.bind ?_
    rintro builtin now₃ ⟨⟨sound₃, onward₃, ext, backs⟩, tells⟩
    replace stage := stage.after sound₃ onward₃
    have gets := hand now₃ name s builtin concerned (there stage)
      (fun m has => ((stage.sound.symbol s).modification m has).1)
      (fun a member => (present a member).trans_le ext.moreArguments) fun a member => by
        rw [ext.argumentOf a (present a member)]
        exact (List.mem_filter.1 member).2
    have stays := (stage.anchor.meanwhile fun hidden => (sound_frame hidden).componentArguments builtin
      concerned).bind fun as now₄ stage => stage.modifyMore s as
    refine ((ensures_bind _ _).1 ((gets.and stays).mono (fun _ _ => id) fun _ _ _ => trivial).ran).bind
      fun as now₄ more => more.bind fun _ last handed => ?_
    obtain ⟨⟨⟨hands, _⟩, stage₄⟩, passes_⟩ := handed
    obtain ⟨m, _, has, _⟩ := hands.handed
    have noted := (noteScope_notes k has).and (stage₄.meanwhile fun hidden => (sound_frame hidden).noteScope k s)
    refine (noted.mono (fun _ _ => id) fun _ _ _ => trivial).ran.bind ?_
    rintro _ now₅ ⟨⟨notes, stage₅⟩, noting⟩
    have has₅ : (now₅.symbolOf s).modification = some m := by
      unfold Library.symbolOf at has ⊢
      rw [notes.symbols, has]
    rw [ensures_bind, ensures_tryCatch, bind_symbolOf, bind_classOf, has₅]
    have around := fun p has => ((stage₅.sound.closed c).parent p has).1
    have opened₅ : now₅.Open (hidden.insert k own w) c :=
      ⟨(opened.1.trans_le ext.moreClasses).trans_le stage₅.more, opened.2⟩
    refine (always _ c (some m) _ now₅ stage₅.sound opened₅ around).mono ?_ fun _ next _ =>
      ((sound_frame hidden).pathText given next).bind fun _ _ _ => .throw
    intro t ended made
    refine (ensures_updateSymbol s _).2 ⟨some c, builtin, now₃, last, _,
      (bind_of_run finds).trans ((bind_of_run takes).trans (bind_of_run tells)), passes_, hands, stage.recalls,
      (aside _).extended sound₂ there₂ ext, sublist, all, fun r has => ?_, .instance_ has noting notes made⟩
    obtain ⟨other, stands⟩ := names r has
    obtain ⟨d, found, origin⟩ := Option.map_eq_some_iff.1 stands
    have known := (open_findClass? start.sound _ k d (names_ne_nil r) found).1
    rw [other, found, backs, goesBack_grown sound ((Grown.refl now₁).modifyModification w _) fuel c
      opened.1, goesBack_twins sound fuel c d opened.1 (onward.known known)
      (by rw [← origin, onward.originOf d known]),
      goesBack_grown start.sound onward.toGrown fuel d known]
    rfl

end Stage

-- The turn of a component of the instance `k`, in which modifications that were waiting are handed to it. Those
-- without a point get there only if its type goes back to a built-in type.
structure Addressed (fuel : Nat) (k : ClassId) (w : ModificationId) (merged : Library)
    (entry : String × SymbolId) (before : Library) (found : Option ClassId) (builtin : Bool) (mid last : Library)
    (taken : List ArgumentId) : Prop where
  opens : openTurn (fuel + 1) k w entry.1 entry.2 before = .ok (found, taken, builtin) mid
  passes_ : handOver entry.2 builtin taken mid = .ok () last
  backs : ∀ r, (before.symbolOf entry.2).type = .named r → builtin = (elementaryNames.contains r.name ||
    (before.findClass? k r.names).any (before.goesBack (fuel + 1)))
  hands : Hands entry.1 entry.2 builtin mid last taken
  sublist : taken.Sublist (merged.modificationOf w).arguments
  all : ∀ a ∈ (merged.modificationOf w).arguments, ∀ r changes,
    (merged.argumentOf a).value = .element r changes → (merged.argumentOf a).redeclare = false →
    r.name = entry.1 → r.child = none → some entry.1 ∉ (merged.classOf k).classes.keys →
      a ∈ taken ∧ builtin = true

structure Taken (merged : Library) (k : ClassId) (w : ModificationId) (name : String)
    (taken : List ArgumentId) : Prop where
  sublist : taken.Sublist (merged.modificationOf w).arguments
  all : ∀ a ∈ (merged.modificationOf w).arguments, ∀ r changes,
    (merged.argumentOf a).value = .element r changes → (merged.argumentOf a).redeclare = false →
    r.name = name → r.child = none → some name ∉ (merged.classOf k).classes.keys → a ∈ taken

theorem Addressed.out {entry before found builtin mid last taken}
    (turn : Addressed fuel k w merged entry before found builtin mid last taken) :
    Taken merged k w entry.1 taken :=
  ⟨turn.sublist, fun a waits r changes value plain name child outside =>
    (turn.all a waits r changes value plain name child outside).1⟩

end Build

end Modelica
