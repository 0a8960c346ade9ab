import Modelica.Proofs.Library.Progress

set_option autoImplicit false

namespace Modelica

namespace Copy

open Build Library Outline

structure Turn (lib : Library) (inside : Entry → Prop) (shared : Prop) (around : List ClassId)
    (c : ClassId) : Prop where
  held : inside (.class_ c)
  apart : shared ∨ ∀ p ∈ around, ¬ inside (.class_ p) ∨
    ∃ depth less, lib.Depth c depth ∧ lib.Depth p less ∧ less < depth
  parent : ∀ p, (lib.classOf c).parent = some p → shared ∨ p ∈ around

section Turn

variable {lib : Library} {inside : Entry → Prop} {shared : Prop} {around : List ClassId}
  {c d : ClassId}

theorem Turn.of_shared (sharing : shared) (held : inside (.class_ c)) : Turn lib inside shared around c :=
  ⟨held, .inl sharing, fun _ _ => .inl sharing⟩

variable (turn : Turn lib inside shared around c)
include turn

theorem Turn.not_mem : shared ∨ c ∉ around := by
  refine turn.apart.imp_right fun apart member => ?_
  obtain out | ⟨depth, less, deep, deep', lower⟩ := apart c member
  · exact out turn.held
  · have := deep.unique deep'
    omega

variable (region : lib.Region inside) (written : shared ∨ lib.Written inside)
include region written

theorem Turn.inner (leads : lib.Leads (.class_ c) (.class_ d)) :
    Turn lib inside shared (c :: around) d := by
  have held := region.closed _ _ turn.held leads
  obtain sharing | written := written
  · exact .of_shared sharing held
  obtain ⟨_, same, parent⟩ := written.around _ d turn.held leads
  cases same
  obtain ⟨depth, deep⟩ := written.depth c turn.held
  refine ⟨held, turn.apart.imp_right fun apart p member => ?_, fun p has => .inr ?_⟩
  · obtain rfl | member := List.mem_cons.1 member
    · exact .inr ⟨depth + 1, depth, .inner parent deep, deep, Nat.lt_succ_self _⟩
    · refine (apart p member).imp_right fun ⟨depth', less, deep', deeper, lower⟩ => ?_
      exact ⟨depth' + 1, less, .inner parent deep', deeper, Nat.lt_succ_of_lt lower⟩
  · rw [parent] at has
    cases has
    exact List.mem_cons_self

theorem Turn.origin : Turn lib inside shared around (lib.originOf c) := by
  obtain sharing | written := written
  · exact .of_shared sharing (region.source _ turn.held)
  · have same : lib.originOf c = c := by simpa [sourceOf] using written.source _ turn.held
    rwa [same]

end Turn

structure Faithful (lib : Library) (inside : Entry → Prop) (shared : Prop) (fuel : Nat) : Prop where
  classes : ∀ opened around limit c, Turn lib inside shared around c → 2 * limit + 2 ≤ fuel →
    (taking (Working lib shared opened around limit)).gives (copyClass fuel c) fun i d =>
      i.Pairs lib shared (.class_ c) (.class_ d)
  origins : ∀ opened around limit c, Turn lib inside shared around c → lib.originOf c = c →
    2 * limit + 1 ≤ fuel →
    (taking (Working lib shared opened around limit)).gives (copyOrigin fuel c) fun i d =>
      i.Pairs lib shared (.class_ c) (.class_ d)
  symbols : ∀ opened around limit s, inside (.symbol s) → 2 * limit + 1 ≤ fuel →
    (taking (Working lib shared opened around limit)).gives (copySymbol fuel s) fun i t =>
      i.Pairs lib shared (.symbol s) (.symbol t)
  modifications : ∀ opened around limit m, inside (.modification m) → 2 * limit + 1 ≤ fuel →
    (taking (Working lib shared opened around limit)).gives (copyModification fuel m) fun i n =>
      i.Pairs lib shared (.modification m) (.modification n)
  arguments : ∀ opened around limit a, inside (.argument a) → 2 * limit + 2 ≤ fuel →
    (taking (Working lib shared opened around limit)).gives (copyArgument fuel a) fun i b =>
      i.Pairs lib shared (.argument a) (.argument b)
  values : ∀ opened around limit (v : ArgumentValue), (∀ x ∈ v.outline.entries, inside x) →
    2 * limit + 2 ≤ fuel →
    (taking (Working lib shared opened around limit)).gives (copyArgumentValue fuel v) fun i w =>
      v.outline.Alike (i.Pairs lib shared) w.outline

namespace Faithful

variable {lib : Library} {inside : Entry → Prop} {shared : Prop} {fuel : Nat}

variable (region : lib.Region inside) (written : shared ∨ lib.Written inside)
  (faithful : Faithful lib inside shared fuel) (opened : List Entry) (around : List ClassId) (limit : Nat)
include faithful

theorem copyArgumentValue (v : ArgumentValue) (held : ∀ x ∈ v.outline.entries, inside x)
    (enough : 2 * limit + 2 ≤ fuel + 1) :
    (taking (Working lib shared opened around limit)).gives (copyArgumentValue (fuel + 1) v)
      fun i w => v.outline.Alike (i.Pairs lib shared) w.outline :=
  copyArgumentValue_alike _ (Memo.Pairs lib shared) inside
    (fun s held => faithful.symbols opened around limit s held (by omega))
    (fun m held => faithful.modifications opened around limit m held (by omega)) v held

include region

theorem copyModification (m : ModificationId) (held : inside (.modification m)) (enough : 2 * limit + 1 ≤ fuel + 1) :
    (taking (Working lib shared opened around limit)).gives (copyModification (fuel + 1) m)
      fun i n => i.Pairs lib shared (.modification m) (.modification n) := by
  intro memo now working
  unfold Copy.copyModification
  refine Ends.get ?_
  cases found : memo.modifications.lookup m with
  | some n =>
    exact Ends.pure working fun final within => within.modifications (mem_of_lookup _ _ _ found)
  | none =>
    refine Ends.lift ((ensures_addModification _).2 ?_)
    have old := region.has _ held
    obtain ⟨n, rfl, begun, pair, new⟩ := working.open_ (touches_pushModification now [])
      (lt_irrefl _) (by simp [Has, nextModification]) (e := .modification m) trivial old found
      rfl trivial
    refine Ends.modify _ (memo.within_note (.modification m) (.modification now.nextModification))
      (Ends.lift ((ensures_modificationOf m).2 ?_))
    show Ends _ _ (memo.note (.modification m) (.modification now.nextModification)) _ _
    have same : (now.pushModification []).modificationOf m = lib.modificationOf m := (begun.added _ old).2
    rw [same]
    have content := copyList_related
      (taking (Working lib shared (.modification now.nextModification :: opened) around n))
      (Copy.copyArgument fuel) (fun i a b => i.Pairs lib shared (.argument a) (.argument b))
      (lib.modificationOf m).arguments fun a member => by
        have leads : lib.Leads (.modification m) (.argument a) := by
          simpa [Leads, outlineOf, Modification.outline, entries, fieldEntries, itemEntries,
            mem_itemEntries] using member
        exact faithful.arguments _ _ n a (region.closed _ _ held leads) (by omega)
    refine Ends.bind (content _ _ begun) fun as after next working more alike => ?_
    have listed := pair.later more
    have there := (working.new _ _ listed).1
    refine Ends.lift ((ensures_updateModification _ _).2 (Ends.pure ?_ fun final later => listed.later later))
    refine working.finish (touches_modifyModification next _ _) new listed rfl trivial ?_ fun a b same => by cases same
    intro final later
    rw [outlineOf, outlineOf, modificationOf_modifyModification_self _ _ _ there]
    have listed := itemsAlike_map (final.Pairs lib shared) (fun a => .entry (.argument a))
      ((alike final later).imp fun _ _ => (alike_entry _ _ _).2)
    simpa [Modification.outline] using listed

include written

theorem copySymbol (s : SymbolId) (held : inside (.symbol s)) (enough : 2 * limit + 1 ≤ fuel + 1) :
    (taking (Working lib shared opened around limit)).gives (copySymbol (fuel + 1) s) fun i t =>
      i.Pairs lib shared (.symbol s) (.symbol t) := by
  intro memo now working
  rw [copySymbol_succ]
  refine Ends.get ?_
  cases found : memo.symbols.lookup s with
  | some t => exact Ends.pure working fun final within => within.symbols (mem_of_lookup _ _ _ found)
  | none =>
    refine Ends.lift ((ensures_symbolOf s).2 (Ends.lift ((ensures_addSymbol _).2 ?_)))
    have same : now.symbolOf s = lib.symbolOf s := (working.added _ (region.has _ held)).2
    obtain ⟨n, rfl, begun, pair, new⟩ := working.open_ (touches_pushSymbol now (now.symbolOf s))
      (lt_irrefl _) (by simp [Has, nextSymbol]) (e := .symbol s) trivial (region.has _ held) found
      rfl trivial
    refine Ends.modify _ (memo.within_note (.symbol s) (.symbol now.nextSymbol)) ?_
    show Ends _ _ (memo.note (.symbol s) (.symbol now.nextSymbol)) _ _
    rw [same] at begun ⊢
    have content : (taking (Working lib shared (.symbol now.nextSymbol :: opened) around n)).gives
        (symbolContent fuel (lib.symbolOf s)) fun i e => SymbolMade (i.Pairs lib shared) (lib.symbolOf s) e := by
      refine symbolContent_made _ _ (lib.Leads (.symbol s))
        (fun t leads => faithful.symbols _ _ n t (region.closed _ _ held leads) (by omega))
        (fun m leads => faithful.modifications _ _ n m (region.closed _ _ held leads) (by omega))
        _ (fun x => id) fun c has => ?_
      have leads := mem_entries_of_type has
      obtain sharing | written := written
      · exact faithful.classes _ _ n c (.of_shared sharing (region.closed _ _ held leads)) (by omega)
      · obtain ⟨d, no, -⟩ := written.around _ c held leads
        cases no
    refine Ends.bind (content _ _ begun) fun e after next working more made => ?_
    have listed := pair.later more
    have there := (working.new _ _ listed).1
    refine Ends.lift ((ensures_updateSymbol _ _).2 (Ends.pure ?_ fun final later => listed.later later))
    refine working.finish (touches_modifySymbol next _ _) new listed rfl trivial ?_ fun a b same => by cases same
    intro final later
    rw [outlineOf, outlineOf, symbolOf_modifySymbol_self _ _ _ there]
    exact (made final later).alike

section

variable (c : ClassId) (turn : Turn lib inside shared around c)
include turn

theorem copyClass (enough : 2 * limit + 2 ≤ fuel + 1) :
    (taking (Working lib shared opened around limit)).gives (copyClass (fuel + 1) c) fun i d =>
      i.Pairs lib shared (.class_ c) (.class_ d) := by
  intro memo now working
  unfold Copy.copyClass
  refine Ends.get ?_
  cases found : memo.classes.lookup c with
  | some d =>
    have pair := (working.own c d found).resolve_left fun both => turn.not_mem.elim both.1 fun out => out both.2
    exact Ends.pure working fun final within => pair.later within
  | none =>
    have same : now.classOf c = lib.classOf c := (working.added _ (region.has _ turn.held)).2
    refine Ends.lift ((ensures_classOf c).2 ?_)
    rw [same]
    have settled : lib.originOf (lib.originOf c) = lib.originOf c := by
      simpa [sourceOf] using region.settled _ turn.held
    refine Ends.bind (faithful.origins opened around limit _ (turn.origin region written) settled
      (by omega) memo now working) fun d after next working within pairs => ?_
    have pair := pairs after (.refl after)
    have same : lib.sourceOf (.class_ (lib.originOf c)) = lib.sourceOf (.class_ c) := congrArg Entry.class_ settled
    by_cases old : lib.Has (.class_ d)
    · obtain ⟨sharing, same', -⟩ := (working.new _ _ pair).2.resolve_left fun new => new old
      have shares : lib.originOf d = lib.originOf c := by
        simpa [sourceOf, settled] using same'.symm
      have right : ∀ final : Memo, final.Pairs lib shared (.class_ c) (.class_ d) :=
        fun final => .inr ⟨sharing, old, shares⟩
      split
      · exact Ends.pure working fun final _ => right final
      · exact Ends.modify _ (after.within_note (.class_ c) (.class_ d))
          (Ends.pure (working.noteOld old (.inr ⟨sharing, shares⟩)) fun final _ => right final)
    · have other : d ≠ c := by
        rintro rfl
        exact old (region.has _ turn.held)
      obtain ⟨last, pair⟩ := working.renote (e := .class_ c) pair old trivial same
        (region.has _ turn.held) (written.imp_right fun written => written.source _ turn.held)
        fun _ => .inr
      rw [if_neg other]
      exact Ends.modify _ (after.within_note (.class_ c) (.class_ d))
        (Ends.pure last fun final later => pair.later later)

theorem copyNew (origin : lib.originOf c = c)
    (enough : 2 * limit ≤ fuel) (memo : Memo)
    (now : Library) (working : Working lib shared opened around limit memo now)
    (lacks : memo.Lacks (.class_ c)) :
    Ends (Working lib shared opened around limit) (copyNew fuel c (lib.classOf c)) memo now
      fun i d => i.Pairs lib shared (.class_ c) (.class_ d) := by
  unfold Copy.copyNew
  refine Ends.lift ((ensures_addClass _).2 ?_)
  have old := region.has _ turn.held
  have source : lib.sourceOf (.class_ c) = .class_ c := congrArg Entry.class_ origin
  have made := classOf_pushClass_self now { lib.classOf c with origin := c }
  obtain ⟨n, rfl, begun, pair, new⟩ := working.open_ (touches_pushClass now
    { lib.classOf c with origin := c }) (lt_irrefl _) (by simp [Has, nextClass])
    (e := .class_ c) trivial old lacks source
    (by rw [Kept, originOf, made, origin]; exact ⟨rfl, fun _ => ⟨rfl, rfl, rfl⟩⟩)
  refine Ends.modify _ (memo.within_note (.class_ c) (.class_ now.nextClass)) ?_
  show Ends _ _ (memo.note (.class_ c) (.class_ now.nextClass)) _ _
  -- inside, the class counts as its own copy
  have begun : Working lib shared (.class_ now.nextClass :: opened) (c :: around) n _ _ :=
    begun.wider (fun _ => id) fun _ => List.mem_cons_of_mem c
  have closed := fun x => region.closed _ x turn.held
  have content : (taking (Working lib shared (.class_ now.nextClass :: opened) (c :: around) n)).gives
      (classContent fuel (lib.classOf c)) fun i e => ClassMade (i.Pairs lib shared) (lib.classOf c) e :=
    classContent_made _ _ (lib.Leads (.class_ c)) (fun s leads => faithful.symbols _ _ n s (closed _ leads) (by omega))
      (fun m leads => faithful.modifications _ _ n m (closed _ leads) (by omega))
      _ (fun x => id) fun d has =>
        faithful.classes _ _ n d (turn.inner region written (mem_entries_of_nested has)) (by omega)
  refine Ends.bind (content _ _ begun) fun e after next working more copied => ?_
  have listed := pair.later more
  refine Ends.lift ((ensures_updateClass _ _).2 ?_)
  have stored := (classOf_modifyClass_self next now.nextClass · (working.new _ _ listed).1)
  have done := working.finish (touches_modifyClass next now.nextClass fun _ => { e with origin := c })
    new listed source (by
      rw [Kept, originOf, stored, origin]
      have copied := copied after (.refl after)
      exact ⟨rfl, fun _ => ⟨copied.parent, by rw [copied.rest], copied.component_eq⟩⟩)
    (fun final later => ?_) fun a b no => by cases no
  · obtain ⟨last, pair⟩ := done.renote (e := .class_ c) listed new trivial rfl old (.inr source) fun d member => by
      obtain rfl | member := List.mem_cons.1 member
      · exact .inl rfl
      · exact .inr member
    exact Ends.modify _ (after.within_note (.class_ c) (.class_ now.nextClass))
      (Ends.pure last fun final later => pair.later later)
  · rw [outlineOf, outlineOf, stored]
    exact (copied final later).alike (region.imports c turn.held) (region.bases c turn.held)

theorem copyOrigin (origin : lib.originOf c = c)
    (enough : 2 * limit + 1 ≤ fuel + 1) :
    (taking (Working lib shared opened around limit)).gives (copyOrigin (fuel + 1) c) fun i d =>
      i.Pairs lib shared (.class_ c) (.class_ d) := by
  have made := faithful.copyNew region written opened around limit c turn origin (Nat.le_of_succ_le_succ enough)
  -- a class that has been copied before is what it was
  have again : ∀ memo now d, Working lib shared opened around limit memo now →
      memo.classes.lookup c = some d → Ends (Working lib shared opened around limit) (do
        lift (updateClass d fun e => { e with origin := c })
        return d) memo now fun i d => i.Pairs lib shared (.class_ c) (.class_ d) := by
    intro memo now d working found
    have pair := (working.own c d found).resolve_left fun both => turn.not_mem.elim both.1 fun out => out both.2
    have still : now.modifyClass d (fun e => { e with origin := c }) = now := by
      refine modifyClass_eq_self now d _ ?_
      have same : (now.classOf d).origin = c := (working.kept _ _ pair).1.trans origin
      rw [← same]
    refine Ends.lift ((ensures_updateClass _ _).2 ?_)
    rw [still]
    exact Ends.pure working fun final later => pair.later later
  intro memo now working
  rw [copyOrigin_succ]
  have same : now.classOf c = lib.classOf c := (working.added _ (region.has _ turn.held)).2
  refine Ends.lift ((ensures_classOf c).2 ?_)
  rw [same]
  cases parent : (lib.classOf c).parent with
  | none =>
    refine Ends.get ?_
    cases found : memo.classes.lookup c with
    | some d => exact again memo now d working found
    | none => exact made memo now working found
  | some p =>
    have listed : ¬ shared ∧ p ∈ around ∨ shared ∧ lib.originOf p = lib.originOf p := by
      by_cases sharing : shared
      · exact .inr ⟨sharing, rfl⟩
      · exact .inl ⟨sharing, (turn.parent p parent).resolve_left sharing⟩
    have noted := working.noteOld (region.parent c p turn.held parent) listed
    refine Ends.modify _ (memo.within_note (.class_ p) (.class_ p)) (Ends.get ?_)
    dsimp only
    cases found : List.lookup c ((p, p) :: memo.classes) with
    | some d => exact again _ now d noted found
    | none => exact made _ now noted found

end

theorem copyArgument (a : ArgumentId) (held : inside (.argument a)) (enough : 2 * limit + 2 ≤ fuel + 1) :
    (taking (Working lib shared opened around limit)).gives (copyArgument (fuel + 1) a) fun i b =>
      i.Pairs lib shared (.argument a) (.argument b) := by
  intro memo now working
  unfold Copy.copyArgument
  refine Ends.get ?_
  cases found : memo.arguments.lookup a with
  | some n =>
    exact Ends.pure working fun final within => within.arguments (mem_of_lookup _ _ _ found)
  | none =>
    have same : now.argumentOf a = lib.argumentOf a := (working.added _ (region.has _ held)).2
    have source := region.source _ held
    have settled : lib.sourceOf (lib.sourceOf (.argument a)) = lib.sourceOf (.argument a) := region.settled _ held
    refine Ends.lift ((ensures_argumentOf a).2 ?_)
    rw [same]
    simp only [sourceOf, Entry.argument.injEq] at source settled
    generalize origin : (lib.argumentOf a).origin = o at source settled
    have sources : lib.sourceOf (.argument o) = lib.sourceOf (.argument a) := by
      simp only [sourceOf, settled, origin]
    have old := region.has _ source
    refine Ends.lift ((ensures_argumentOf o).2 (Ends.get ?_))
    rw [show now.argumentOf o = lib.argumentOf o from (working.added _ old).2]
    -- the copy is noted for the argument as well as for what is copied in its place
    have last : ∀ memo now b, Working lib shared opened around limit memo now →
        memo.Pairs lib shared (.argument o) (.argument b) →
        Ends (Working lib shared opened around limit) (do noteArgument a b; return b) memo now
          fun i b => i.Pairs lib shared (.argument a) (.argument b) := by
      intro memo now b working pair
      have new := (working.new _ _ pair).2.resolve_right (by rintro ⟨_, _, _, no⟩; cases no)
      obtain ⟨noted, pair⟩ := working.renote (e := .argument a) pair new trivial sources
        (region.has _ held) (written.imp_right fun written => written.source _ held) fun _ => .inr
      exact Ends.modify _ (memo.within_note (.argument a) (.argument b))
        (Ends.pure noted fun final later => pair.later later)
    cases found : memo.arguments.lookup o with
    | some b =>
      have pair : memo.Pairs lib shared (.argument o) (.argument b) := mem_of_lookup _ _ _ found
      simp only [pure_bind]
      refine Ends.lift ((ensures_updateArgument _ _).2 (last _ _ b ?_ pair))
      obtain ⟨there, new⟩ := working.new _ _ pair
      by_cases member : .argument b ∈ opened
      · refine working.touch (touches_modifyArgument now b _) member
          (new.resolve_right (by rintro ⟨_, _, _, no⟩; cases no)) fun e pair' => ?_
        have kept := working.kept e _ pair'
        cases e with
        | argument a' =>
          rw [Kept, argumentOf_modifyArgument_self _ _ _ there]
          exact kept
        | class_ _ | symbol _ | modification _ => exact pair'.elim
      · obtain ⟨same, scope⟩ := working.arguments o b pair member
        rw [settled] at same scope
        rw [modifyArgument_eq_self]
        · exact working
        · rw [← scope, ← same]
    | none =>
      simp only [pure_bind]
      refine Ends.lift ((ensures_addArgument _ _ _).2 ?_)
      obtain ⟨n, rfl, begun, pair, new⟩ := working.open_ (touches_pushArgument now
        ⟨(lib.argumentOf o).value, none, (lib.argumentOf o).redeclare, now.nextArgument⟩)
        (lt_irrefl _) (by simp [Has, nextArgument]) (e := .argument o) trivial old found
        (congrArg Entry.argument settled) (by rw [Kept, argumentOf_pushArgument_self, settled])
      refine Ends.modify _ (memo.within_note (.argument o) (.argument now.nextArgument)) ?_
      show Ends _ _ (memo.note (.argument o) (.argument now.nextArgument)) _ _
      refine Ends.bind (faithful.values _ _ n _ (fun x member => region.closed _ x source ?_)
        (by omega) _ _ begun) fun v after next working more alike => ?_
      · simp [Leads, outlineOf, Argument.outline, entries, fieldEntries, member]
      have listed := pair.later more
      have there := (working.new _ _ listed).1
      refine Ends.lift ((ensures_updateArgument _ _).2 (Ends.lift ((ensures_updateArgument _ _).2
        (last _ _ _ ?_ listed))))
      have stored := argumentOf_modifyArgument_self (next.modifyArgument now.nextArgument
        fun e => { e with value := v }) now.nextArgument (fun e => { e with
          scope := (lib.argumentOf o).scope, origin := o }) (by simpa [Has] using there)
      rw [argumentOf_modifyArgument_self _ _ _ there] at stored
      have redeclare := working.kept _ _ listed
      simp only [Kept, settled] at redeclare
      have touches := (touches_modifyArgument next now.nextArgument
        fun e => { e with value := v }).trans (touches_modifyArgument _ _ fun e => { e with
          scope := (lib.argumentOf o).scope, origin := o })
      refine working.finish touches new listed (congrArg Entry.argument settled) ?_
        (fun final later => ?_) (fun b d same other => ?_)
      · rw [Kept, stored, settled]
        exact redeclare
      · rw [outlineOf, outlineOf, stored]
        simp [Argument.outline, redeclare, alike final later]
      · cases same
        cases other
        rw [stored]
        exact ⟨rfl, rfl⟩

end Faithful

theorem faithful {lib : Library} {inside : Entry → Prop} {shared : Prop} (region : lib.Region inside)
    (written : shared ∨ lib.Written inside) (fuel : Nat) : Faithful lib inside shared fuel := by
  induction fuel with
  | zero => constructor <;> intros <;> omega
  | succ fuel ih =>
    exact ⟨ih.copyClass region written, ih.copyOrigin region written, ih.copySymbol region written,
      ih.copyModification region, ih.copyArgument region written, ih.copyArgumentValue⟩

end Copy

end Modelica
