import Modelica.Proofs.Library.Edited
import Modelica.Proofs.Library.Resolved

set_option autoImplicit false

namespace Modelica

namespace Library

-- A clause of a class names another. Names of built-in types do not count.
def Extends (lib : Library) (c b : ClassId) : Prop :=
  ∃ r ∈ (lib.classOf c).bases, elementaryNames.contains r.name = false ∧
    lib.findClass? c r.names = some b

inductive Inherits (lib : Library) : Nat → ClassId → Prop
  | here (c : ClassId) : Inherits lib 0 c
  | step {n : Nat} {c b : ClassId} : lib.Extends c b → Inherits lib n b → Inherits lib (n + 1) c

def LeadsBack (lib : Library) (c : ClassId) : Prop :=
  ∃ b, Relation.ReflTransGen lib.Extends c b ∧ Relation.TransGen lib.Extends b b

variable {hidden hidden' : Hidden} {lib now : Library} {c b d : ClassId}

theorem LeadsBack.next (back : lib.LeadsBack c) : ∃ b, lib.Extends c b ∧ lib.LeadsBack b := by
  obtain ⟨e, reached, cycle⟩ := back
  obtain rfl | ⟨b, first, rest⟩ := reached.cases_head
  · obtain ⟨b, first, rest⟩ := Relation.TransGen.head'_iff.1 cycle
    exact ⟨b, first, c, rest, cycle⟩
  · exact ⟨b, first, e, rest, cycle⟩

theorem LeadsBack.inherits (back : lib.LeadsBack c) (n : Nat) : lib.Inherits n c := by
  induction n generalizing c with
  | zero => exact .here c
  | succ n ih =>
    obtain ⟨b, first, rest⟩ := back.next
    exact .step first (ih rest)

theorem bases_of_originOf (later : now.Sound hidden') (grown : lib.Grown now)
    (known : c.In lib) (there : d.In now)
    (same : now.originOf d = lib.originOf c) : (now.classOf d).bases = (lib.classOf c).bases := by
  rw [(later.twins there).bases, same, ← grown.originOf c known,
    ← (later.twins (grown.known known)).bases, grown.classOf c known]

theorem findClass?_of_originOf (sound : lib.Sound hidden) (later : now.Sound hidden')
    (grown : lib.Grown now) (known : c.In lib) (there : d.In now)
    (same : now.originOf d = lib.originOf c) (r : ComponentRef) (found : lib.findClass? c r.names = some b) :
    (now.findClass? d r.names).map now.originOf = some (lib.originOf b) := by
  have twin := findClass?_twins later there (grown.known known) (same.trans (grown.originOf c known).symm) r.names
  rw [twin, findClass?_grown sound grown r.names c known, found, Option.map_some,
    grown.originOf b (open_findClass? sound _ c b (names_ne_nil r) found).1]

section FullName

variable {n : Nat}

theorem depth_outward (depth : lib.Depth c n) (i : Nat) {e : ClassId}
    (found : lib.outward c i = some e) : ∃ k, n = i + k ∧ lib.Depth e k := by
  induction i generalizing e with
  | zero =>
    cases found
    exact ⟨n, (Nat.zero_add n).symm, depth⟩
  | succ i ih =>
    obtain ⟨d, there, parent⟩ := Option.bind_eq_some_iff.1 found
    obtain ⟨k, rfl, deep⟩ := ih there
    cases deep with
    | top none => rw [none] at parent; cases parent
    | inner has further =>
      rw [has] at parent
      cases parent
      exact ⟨_, by omega, further⟩

theorem Depth.outermost (depth : lib.Depth c n) : ∃ e, lib.outward c n = some e ∧ lib.Depth e 0 := by
  induction depth with
  | top none => exact ⟨_, rfl, .top none⟩
  | inner has _ ih =>
    obtain ⟨e, there, outer⟩ := ih
    refine ⟨e, ?_, outer⟩
    rw [Nat.add_comm, lib.outward_add _ _ 1 _ has, there]

theorem Depth.less (closed : lib.Closed) (known : c.In lib)
    (depth : lib.Depth c n) : n < lib.classes.size := by
  obtain ⟨e, there, outer⟩ := depth.outermost
  obtain ⟨j, less, near⟩ := outward_near closed c known n e there
  obtain ⟨k, rfl, deep⟩ := depth_outward depth j near
  have := deep.unique outer
  omega

theorem Depth.chain_eq (depth : lib.Depth c n) {m : Nat} (more : n < m) : lib.chain m c = lib.chain (n + 1) c := by
  induction depth generalizing m with
  | top none =>
    obtain ⟨m, rfl⟩ := Nat.exists_eq_add_of_lt more
    unfold chain
    rw [none]
  | inner has _ ih =>
    obtain ⟨m, rfl⟩ := Nat.exists_eq_add_of_lt more
    rw [chain.eq_2, chain.eq_2, has]
    exact congrArg _ (ih (by omega))

theorem path_grown (closed : lib.Closed) (grown : lib.Grown now)
    (known : c.In lib) (depth : lib.Depth c n) : now.path c = lib.path c := by
  have less := depth.less closed known
  have same : now.enclosing c = lib.enclosing c := by
    unfold enclosing
    rw [chain_grown closed grown _ c known, depth.chain_eq (Nat.lt_succ_of_lt (less.trans_le grown.moreClasses)),
      depth.chain_eq (Nat.lt_succ_of_lt less)]
  unfold path
  rw [same]
  refine congrArg (List.reverse ∘ List.dropLast) (List.map_congr_left fun e member => ?_)
  rw [grown.classOf e (chain_induct closed.parent_known _ c e known member)]

theorem path_of_twin (name : (lib.classOf d).name = (lib.classOf c).name)
    (parent : (lib.classOf d).parent = (lib.classOf c).parent) : lib.path d = lib.path c := by
  unfold path enclosing
  rw [chain.eq_2, chain.eq_2, List.map_cons, List.map_cons, name, parent]

end FullName

def base? (lib : Library) (c : ClassId) : Option ClassId :=
  match (lib.classOf c).bases with
  | [r] => if elementaryNames.contains r.name then none else lib.findClass? c r.names
  | _ => none

theorem base?_eq_some (found : lib.base? c = some b) : ∃ r, (lib.classOf c).bases = [r] ∧
    elementaryNames.contains r.name = false ∧ lib.findClass? c r.names = some b := by
  unfold base? at found
  split at found
  · next r only =>
    split at found
    · cases found
    · next other => exact ⟨r, only, Bool.eq_false_iff.2 other, found⟩
  · cases found

def FullName (lib : Library) (c : ClassId) (text : String) : Prop :=
  (∃ n, lib.Depth c n) ∧ Library.pathText (lib.path c) = .ok text

inductive Ends (lib : Library) : Nat → ClassId → Error → Prop
  | deep (c : ClassId) : Ends lib 0 c .unbounded
  | itself {fuel : Nat} {c b : ClassId} {text : String} : lib.base? c = some b →
      lib.FullName c text → lib.FullName b text → Ends lib (fuel + 1) c (.extendsItself text)
  | further {fuel : Nat} {c b : ClassId} {text other : String} {e : Error} : lib.base? c = some b →
      lib.FullName c text → lib.FullName b other → other ≠ text → Ends lib fuel b e →
      Ends lib (fuel + 1) c e

def Line (lib : Library) (c : ClassId) : Prop :=
  ∀ b, Relation.ReflTransGen lib.Extends c b →
    (lib.classOf b).bases.length = 1 ∧ ∃ text, lib.FullName b text

def Repeats (lib : Library) (c : ClassId) : Prop :=
  ∃ b d text, Relation.ReflTransGen lib.Extends c b ∧ lib.Extends b d ∧ lib.FullName b text ∧
    lib.FullName d text

theorem FullName.unique {text other : String} (first : lib.FullName c text)
    (second : lib.FullName c other) : text = other :=
  Except.ok.inj (first.2.symm.trans second.2)

theorem Extends.base? (single : (lib.classOf c).bases.length = 1) (leads : lib.Extends c b) : lib.base? c = some b := by
  obtain ⟨r, member, other, found⟩ := leads
  obtain ⟨q, only⟩ := List.length_eq_one_iff.1 single
  rw [only, List.mem_singleton] at member
  subst member
  unfold Library.base?
  rw [only]
  simp only [other, Bool.false_eq_true, if_false, found]

section

variable (line : lib.Line c)
include line

theorem Line.next (leads : lib.Extends c b) : lib.Line b :=
  fun d reached => line d (.head leads reached)

theorem Line.ends_deep (back : lib.LeadsBack c) (never : ¬ lib.Repeats c) (fuel : Nat) :
    lib.Ends fuel c .unbounded := by
  induction fuel generalizing c with
  | zero => exact .deep c
  | succ fuel ih =>
    obtain ⟨b, leads, back⟩ := back.next
    obtain ⟨single, text, here⟩ := line c .refl
    obtain ⟨-, other, there⟩ := line b (.single leads)
    refine .further (leads.base? single) here there ?_ (ih (line.next leads) back ?_)
    · rintro rfl
      exact never ⟨c, b, other, .refl, leads, here, there⟩
    · rintro ⟨e, d, text, reached, rest⟩
      exact never ⟨e, d, text, .head leads reached, rest⟩

theorem Line.ends_itself {i fuel : Nat} (less : i < fuel)
    (reached : follow lib.base? c i = some b) (leads : lib.Extends b d) {text : String}
    (here : lib.FullName b text) (there : lib.FullName d text) :
    ∃ text, lib.Ends fuel c (.extendsItself text) := by
  induction i generalizing c fuel with
  | zero =>
    cases reached
    obtain ⟨fuel, rfl⟩ := Nat.exists_eq_add_of_lt less
    exact ⟨text, .itself (leads.base? (line b .refl).1) here there⟩
  | succ i ih =>
    obtain ⟨fuel, rfl⟩ := Nat.exists_eq_add_of_lt less
    cases first : lib.base? c with
    | none =>
      rw [follow_none lib.base? c (Nat.succ_le_succ (Nat.zero_le i)) first] at reached
      cases reached
    | some e =>
      obtain ⟨r, only, other, found⟩ := base?_eq_some first
      have extends_ : lib.Extends c e := ⟨r, only ▸ List.mem_singleton_self r, other, found⟩
      rw [Nat.add_comm, follow_add lib.base? c e 1 i first] at reached
      obtain ⟨-, own, mine⟩ := line c .refl
      obtain ⟨-, next, its⟩ := line e (.single extends_)
      by_cases same : next = own
      · subst same
        exact ⟨next, .itself first mine its⟩
      · have enough : i < i + 1 + fuel := by omega
        obtain ⟨text, ends⟩ := ih (line.next extends_) enough reached
        exact ⟨text, .further first mine its same ends⟩

theorem Line.follow (reached : Relation.ReflTransGen lib.Extends c b) :
    ∃ i, Library.follow lib.base? c i = some b := by
  induction reached with
  | refl => exact ⟨0, rfl⟩
  | @tail d e before leads ih =>
    obtain ⟨i, there⟩ := ih
    refine ⟨i + 1, ?_⟩
    rw [Library.follow, there]
    exact leads.base? (line d before).1


end

end Library

namespace Build

open Library

def Stuck (lib : Library) (fuel n : Nat) : Prop :=
  ∀ (hidden : Hidden) (now : Library) given environment parent c, now.Sound hidden →
    now.Open hidden given → (∀ p, parent = some p → p.index < now.classes.size) → lib.Grown now →
    c.index < lib.classes.size → now.originOf given = lib.originOf c → lib.Inherits n c →
    (mergeBases fuel given environment parent).Ensures now (fun _ _ => False) fun _ _ => True

def mergeOther (merge : Builder) (id : ClassId) (waiting : ModificationId) (single : Bool)
    (clause : ExtendsClause) (base : ClassId) : Build Unit := do
  let b ← classOf base
  if b.type = "__builtin" then
    unless single do throw .extendsBuiltinAndOthers
    updateClass id fun e => { e with type := b.type }
  let merged ← merge base (some clause.modification) b.parent
  takeOver id merged
  appendArguments waiting (← argumentsOf (← environmentOf merged))
  limitVisibility id clause.visibility

theorem mergeBase_eq (merge : Builder) (given id : ClassId) (waiting : ModificationId) (single : Bool)
    (clause : ExtendsClause) : mergeBase merge given id waiting single clause = (do
      let base ← baseClass given clause.component
      let path ← pathText base
      if path = (← pathText given) then throw (.extendsItself path)
      mergeOther merge id waiting single clause base) := by
  rfl

variable {hidden : Hidden} {start now lib : Library} {k c b root : ClassId} {own : Prop}
  {w : ModificationId} {parent : Option ClassId} {table : OrderedMap (Option String) ClassId}
  {bad : Error → Library → Prop} {r : ComponentRef} {α : Type}

theorem Forming.mergeOther_fails {merge : Builder} {base : ClassId} {single : Bool}
    {clause : ExtendsClause} (forming : Forming hidden start k own w parent table now)
    (alone : single = false → ∀ next, bad .extendsBuiltinAndOthers next)
    (fails : ∀ next, next.Sound (hidden.insert k own w) → (next = now ∨
      next = now.modifyClass k fun e => { e with type := (now.classOf base).type }) →
      (merge base (some clause.modification) (now.classOf base).parent).Ensures next (fun _ _ => False) bad) :
    (mergeOther merge k w single clause base).Ensures now (fun _ _ => False) bad := by
  unfold mergeOther
  rw [bind_classOf]
  extract_lets rest typed
  split
  · split
    · unfold typed
      rw [bind_updateClass]
      have mine := forming.sound.classes k forming.known
      have changed := forming.modifyClass (fun e => { e with type := (now.classOf base).type })
        rfl rfl rfl rfl forming.unique mine.holds.symbols mine.nested mine.functions
      exact (fails _ changed.sound (.inr rfl)).bind fun _ _ no => no.elim
    · next several =>
      exact (ensures_bind _ _).2 ((ensures_throw _).2 (alone (Bool.eq_false_iff.2 several) _))
  · exact (fails _ forming.sound (.inl rfl)).bind fun _ _ no => no.elim

theorem Forming.mergeBase_fails {hidden' : Hidden} {given : ClassId} {fuel n : Nat}
    (stuck : Stuck lib fuel n) (sound : lib.Sound hidden')
    (forming : Forming hidden start k own w parent table now) (grown : lib.Grown now)
    (new : k.New lib) (known : c.In lib)
    (there : given.In now) (same : now.originOf given = lib.originOf c)
    (single : Bool) (clause : ExtendsClause)
    (other : elementaryNames.contains clause.component.name = false)
    (found : lib.findClass? c clause.component.names = some b) (inherits : lib.Inherits n b) :
    (Build.mergeBase (mergeBases fuel) given k w single clause).Ensures now (fun _ _ => False) anyhow := by
  have named := findClass?_of_originOf sound forming.sound grown known there same _ found
  have inside := (open_findClass? sound _ c b (names_ne_nil _) found).1
  rw [mergeBase_eq]
  refine (baseClass_sound now forming.sound given clause.component there).bind ?_
  rintro base now₁ ⟨sound₁, onward₁, opened₁, stands, -⟩
  have origin : now₁.originOf base = lib.originOf b := Option.some.inj ((stands other).symm.trans named)
  replace grown := grown.trans onward₁.toGrown
  have forming₁ := forming.after sound₁ onward₁
  refine (passing_eq.pathText base now₁).bind ?_
  rintro path now₁ rfl
  refine (passing_eq.pathText given now₁).bind ?_
  rintro outer now₁ rfl
  extract_lets checked
  split
  · exact (ensures_bind _ _).2 (.throw)
  refine forming₁.mergeOther_fails (fun _ _ => trivial) fun next later same => ?_
  have around := fun p has => ((sound₁.closed base).parent p has).1
  obtain rfl | rfl := same
  · exact stuck _ _ base _ _ b later opened₁ around grown inside origin inherits
  · have sizes := classes_size_modifyClass now₁ k fun e => { e with type := (now₁.classOf base).type }
    have origins := originOf_modifyClass now₁ k (fun e => { e with type := (now₁.classOf base).type }) rfl
    exact stuck _ _ base _ _ b later ⟨sizes ▸ opened₁.1, opened₁.2⟩ (fun p has => sizes ▸ around p has)
      (grown.modifyClass k new _) inside ((congrFun origins base).trans origin) inherits

theorem mergeBases_stuck (sound : lib.Sound hidden) (fuel n : Nat) (less : fuel ≤ n) : Stuck lib fuel n := by
  induction fuel generalizing n with
  | zero => exact fun _ _ _ _ _ _ _ _ _ _ _ _ _ => .throw
  | succ fuel ih =>
    intro hidden' now given environment parent c later opened around grown known same inherits
    obtain _ | ⟨⟨r, member, other, found⟩, inherits⟩ := inherits
    · omega
    rw [← bases_of_originOf later grown known opened.1 same] at member
    obtain ⟨clause, among, rfl⟩ := List.mem_map.1 member
    refine mergeBases_begins fuel later opened around fun w start _ _ _ begun => ?_
    generalize start.nextClass = k at *
    unfold complete
    rw [ensures_bind]
    -- the clause that leads on is reached at the latest, and then merging fails
    refine ensures_forIn _ _ _ (fun done _ next => (∃ table, Forming hidden' now k _ w parent table next) ∧
      clause ∉ done) ⟨⟨_, begun⟩, List.not_mem_nil⟩ ?_ ?_
    · rintro done x rest ⟨⟩ next _ ⟨⟨table, forming⟩, before⟩
      by_cases here : x = clause
      · subst here
        have onward := forming.onward
        exact (forming.mergeBase_fails (ih _ (by omega)) sound (grown.trans onward.toGrown)
          (grown.moreClasses.trans forming.new) known (onward.known opened.1)
          ((onward.originOf given opened.1).trans same) _ x other found inherits).bind
          fun _ _ no => no.elim
      · refine (forming.mergeBase (mergeBases_shapes fuel) later opened _ x).bind fun _ after merged => ?_
        rw [ensures_pure]
        refine ⟨⟨_, merged.1⟩, ?_⟩
        rw [List.mem_append, List.mem_singleton]
        rintro (old | new)
        · exact before old
        · exact here new.symm
    · rintro ⟨⟩ next ⟨-, absent⟩
      exact absurd among absent

theorem findClass?_of_classNamed {next : Library} (named : classNamed root r lib = .ok c next) :
    lib.findClass? root r.names = some c := by
  have ensures : (classNamed root r).Ensures lib (fun a _ => lib.findClass? root r.names = some a) anyhow := by
    unfold classNamed findClass
    split
    · exact (ensures_bind _ _).2 (.throw)
    · rw [bind_get]
      split
      · next found => exact .pure found
      · exact .throw
  unfold Ensures at ensures
  rw [named] at ensures
  exact ensures

theorem flatten_fails (named : classNamed root r lib = .ok c lib)
    (fails : (mergeBases (4 * lib.size + 32) c none (lib.classOf c).parent).Ensures lib
      (fun _ _ => False) bad) : (flatten root r).Ensures lib (fun _ _ => False) bad := by
  have returns : (classNamed root r).Returns lib fun a next => a = c ∧ next = lib := by
    unfold Returns Ensures
    rw [named]
    exact ⟨rfl, rfl⟩
  unfold flatten
  refine Ensures.bind (Ensures.mono returns (fun _ _ => id) fun _ _ no => no.elim) ?_
  rintro _ _ ⟨rfl, rfl⟩
  unfold depthLimit flattenClass depthLimit instantiate
  simp only [bind_pure_comp, ensures_bind, ensures_map, ensures_get, ensures_classOf]
  exact fails.mono (fun _ _ no => no.elim) fun _ _ => id

theorem Ensures.fails {x : Build α} (ensures : x.Ensures lib (fun _ _ => False) bad) :
    ∃ e next, x lib = .error e next ∧ bad e next := by
  unfold Ensures at ensures
  cases run : x lib with
  | ok a next =>
    rw [run] at ensures
    exact ensures.elim
  | error e next =>
    rw [run] at ensures
    exact ⟨e, next, rfl, ensures⟩

section Line

open Outline

variable {d : ClassDef} {start now : Library} {w : ModificationId} {parent : Option ClassId}
  {hidden : Hidden} {given k : ClassId} {fuel : Nat} {e : Error}

theorem name_of_alike {R : Entry → Entry → Prop} {e : ClassDef}
    (alike : d.outline.Alike R e.outline) : e.name = d.name := by
  unfold ClassDef.outline at alike
  rw [Outline.Alike] at alike
  obtain ⟨fields, same, alike⟩ := alike
  obtain ⟨-, rfl⟩ := Outline.record.inj same
  simp only [List.cons_append, Outline.FieldsAlike] at alike
  obtain ⟨name, _, listed, alike, -⟩ := alike
  obtain ⟨first, -⟩ := List.cons.inj listed
  obtain ⟨-, rfl⟩ := Prod.mk.inj first
  clear listed first same
  generalize d.name = old at alike ⊢
  generalize e.name = new at alike ⊢
  cases old <;> cases new <;> simp [Outline.optional, Outline.Alike] at alike ⊢
  exact alike

section

variable {lib : Library} (whole : lib.Whole)
include whole

theorem baseClass_named (closed : lib.Closed) {c b : ClassId} (known : lib.Has (.class_ c))
    {r : ComponentRef} (other : elementaryNames.contains r.name = false)
    (found : lib.findClass? c r.names = some b) : (baseClass c r).Returns lib fun n next =>
      lib.Follows next ∧ (next.classOf n).name = (lib.classOf (lib.originOf b)).name := by
  unfold baseClass findClass
  rw [other]
  simp only [Bool.false_eq_true, if_false, Returns, ensures_bind, ensures_get, found, ensures_pure]
  have inside := whole.has_findClass? known found
  have copied := (Copy.faithful whole (.inl trivial) _).classes [] [] lib.size b
    (.of_shared trivial inside) le_rfl {} lib (.empty lib True [])
  have new := copyClass_new lib closed b
  unfold copyClass Copy.fuelFor at new ⊢
  rw [bind_get, ensures_bind] at new ⊢
  refine (new.and copied).mono ?_ fun _ _ no => no.2
  rintro ⟨n, memo⟩ next ⟨fresh, working, -, right⟩
  have fresh := ((ensures_pure n).1 fresh).2.1
  have pair := right memo (.refl memo)
  exact (ensures_pure n).2 ⟨working.follows whole, name_of_alike
    (working.done _ _ pair (not_lt.2 fresh) List.not_mem_nil memo (.refl memo))⟩

theorem follows_pushModification : lib.Follows (lib.pushModification []) := by
  refine whole.touchOther (touches_pushModification lib []) rfl nofun fun y leads => ?_
  rw [outlineOf, modificationOf_pushModification_self] at leads
  cases leads

theorem whole_begun (around : ∀ p, parent = some p → p.In lib)
    (begins : start = lib.pushModification [] ∨ start = (lib.pushModification []).pushModification [])
    (waits : w.In start) :
    (start.pushClass (ClassDef.begun d lib.nextModification parent w start.nextClass)).Whole := by
  have first := follows_pushModification whole
  have follows : lib.Follows start ∧ start.Has (.modification lib.nextModification) := by
    have here : (lib.pushModification []).Has (.modification lib.nextModification) := by
      simp [Has, nextModification]
    obtain rfl | rfl := begins
    · exact ⟨first, here⟩
    · have second := follows_pushModification first.whole
      exact ⟨first.trans second, second.has _ here⟩
  refine (follows.1.whole.pushClass _ rfl ⟨fun x member => ?_, fun p has => ?_,
    fun _ member => absurd member List.not_mem_nil,
    fun _ member => absurd member List.not_mem_nil⟩).whole
  · rw [ClassDef.mem_entries] at member
    simp only [ClassDef.begun, OrderedMap.empty, List.map_nil, Equation.outlines, Statement.outlines,
      itemEntries, List.not_mem_nil, false_and, exists_false, false_or, Option.some.injEq, reduceCtorEq,
      ClassRole.instance_.injEq, exists_eq_left'] at member
    obtain rfl | rfl := member
    · exact follows.2
    · exact waits
  · exact follows.1.has _ (around p has)

end

theorem pathText_returns (lib : Library) {c : ClassId} {text : String}
    (named : Library.pathText (lib.path c) = .ok text) :
    (pathText c).Returns lib fun a next => a = text ∧ next = lib := by
  unfold pathText
  rw [Returns, bind_get, named]
  exact .pure ⟨rfl, rfl⟩

structure StandsFor (lib : Library) (c : ClassId) (hidden : Hidden) (now : Library) (given : ClassId) :
    Prop where
  sound : now.Sound hidden
  whole : now.Whole
  opened : now.Open hidden given
  grown : lib.Grown now
  same : now.originOf given = lib.originOf c
  called : (now.classOf given).name = (lib.classOf c).name

def Fails (lib : Library) (fuel : Nat) (c : ClassId) (e : Error) : Prop :=
  ∀ hidden now given environment parent, StandsFor lib c hidden now given →
    (∀ p, parent = some p → p.index < now.classes.size) →
    (mergeBases fuel given environment parent).Ensures now (fun _ _ => False) fun e' _ => e' = e

variable {lib : Library} (original : lib.Original) {c b : ClassId} {text other : String}

include original

theorem StandsFor.path (stands : StandsFor lib c hidden now given)
    (known : c.In lib) (named : lib.FullName c text) :
    Library.pathText (now.path given) = .ok text := by
  obtain ⟨⟨n, depth⟩, named⟩ := named
  have grown := stands.grown
  have parent : (now.classOf given).parent = (now.classOf c).parent := by
    rw [(stands.sound.twins stands.opened.1).parent, stands.same, (original.classes c.index known).1]
  rw [path_of_twin (stands.called.trans (by rw [grown.classOf c known])) parent,
    path_grown original.sound.closed grown known depth, named]

omit original in
theorem StandsFor.merging {hidden' : Hidden} {next : Library}
    (stands : StandsFor lib c hidden now given) (sound : next.Sound hidden') (whole : next.Whole)
    (onward : now.Onward hidden next) (opened : ¬ hidden'.classes given) :
    StandsFor lib c hidden' next given where
  sound := sound
  whole := whole
  opened := ⟨onward.known stands.opened.1, opened⟩
  grown := stands.grown.trans onward.toGrown
  same := (onward.originOf given stands.opened.1).trans stands.same
  called := by rw [onward.classOf given stands.opened.1, stands.called]

omit original in
theorem StandsFor.noted {base : ClassId} (stands : StandsFor lib b hidden now base)
    (new : k.New lib) (known : k.In now)
    (closedTo : hidden.classes k) (type : String)
    (sound : (now.modifyClass k fun e => { e with type := type }).Sound hidden) :
    StandsFor lib b hidden (now.modifyClass k fun e => { e with type := type }) base where
  sound := sound
  whole := by
    have fits := stands.whole.classFits known
    refine (stands.whole.modifyClass known _ rfl ⟨fun x member => fits.entries x ?_, fits.parent,
      fits.imports, fits.bases⟩).whole
    rw [ClassDef.mem_entries] at member ⊢
    exact member
  opened := ⟨(classes_size_modifyClass now k _).symm ▸ stands.opened.1, stands.opened.2⟩
  grown := stands.grown.modifyClass k new _
  same := (congrFun (originOf_modifyClass now k _ rfl) base).trans stands.same
  called := by
    rw [classOf_modifyClass_ne now k base _ fun same => stands.opened.2 (same ▸ closedTo), stands.called]

theorem StandsFor.mergeBase_fails {own : Prop} {table : OrderedMap (Option String) ClassId}
    {clause : ExtendsClause} (stands : StandsFor lib c (hidden.insert k own w) now given)
    (forming : Forming hidden start k own w parent table now) (new : k.New lib)
    (known : c.In lib) (inside : b.In lib)
    (elementary : elementaryNames.contains clause.component.name = false)
    (found : lib.findClass? c clause.component.names = some b) (here : lib.FullName c text)
    (there : lib.FullName b other) (itself : other = text → e = .extendsItself other)
    (further : other ≠ text → Fails lib fuel b e) :
    (mergeBase (mergeBases fuel) given k w true clause).Ensures now (fun _ _ => False) fun e' _ => e' = e := by
  obtain ⟨d, within, origin⟩ := Option.map_eq_some_iff.1 (findClass?_of_originOf original.sound
    stands.sound stands.grown known stands.opened.1 stands.same _ found)
  have copied := (baseClass_sound now stands.sound given clause.component stands.opened.1).and
    (baseClass_named stands.whole stands.sound.closed stands.opened.1 elementary within)
  rw [mergeBase_eq]
  refine (copied.mono (fun _ _ => id) fun _ _ no => no.2.elim).bind ?_
  rintro base now₁ ⟨⟨sound₁, onward₁, opened₁, names, -⟩, follows, called⟩
  have first := stands.merging sound₁ follows.whole onward₁ stands.opened.2
  have second : StandsFor lib b (hidden.insert k own w) now₁ base := by
    refine ⟨sound₁, follows.whole, opened₁, first.grown, ?_, ?_⟩
    · rw [within] at names
      exact (Option.some.inj (names elementary)).symm.trans origin
    · rw [called, origin, (original.classes b.index inside).1, stands.grown.classOf b inside]
  have forming₁ := forming.after sound₁ onward₁
  refine (Ensures.mono (pathText_returns now₁ (second.path original inside there)) (fun _ _ => id)
    fun _ _ no => no.elim).bind ?_
  rintro _ _ ⟨rfl, rfl⟩
  refine (Ensures.mono (pathText_returns _ (first.path original known here)) (fun _ _ => id)
    fun _ _ no => no.elim).bind ?_
  rintro _ _ ⟨rfl, rfl⟩
  extract_lets checked
  split
  · next same => exact (ensures_bind _ _).2 ((ensures_throw _).2 (itself same).symm)
  next differ =>
  refine forming₁.mergeOther_fails nofun fun next later same => ?_
  have around := fun p has => ((sound₁.closed base).parent p has).1
  obtain rfl | rfl := same
  · exact further differ _ _ base _ _ second around
  · refine further differ _ _ base _ _ (second.noted new forming₁.known (.inr rfl) _ later) fun p has => ?_
    rw [classes_size_modifyClass]
    exact around p has

theorem fails_step (known : c.In lib) (leads : lib.base? c = some b)
    (here : lib.FullName c text) (there : lib.FullName b other) (itself : other = text → e = .extendsItself other)
    (further : other ≠ text → Fails lib fuel b e) : Fails lib (fuel + 1) c e := by
  intro hidden now given environment parent stands around
  obtain ⟨r, only, elementary, found⟩ := base?_eq_some leads
  have inside := (open_findClass? original.sound _ c b (names_ne_nil r) found).1
  rw [← bases_of_originOf stands.sound stands.grown known stands.opened.1 stands.same] at only
  obtain ⟨clause, single, rfl⟩ := List.map_eq_singleton_iff.1 only
  refine mergeBases_begins fuel stands.sound stands.opened around fun w start begins _ _ begun => ?_
  have whole := whole_begun (d := now.classOf given) stands.whole around begins begun.waits
  have new := stands.grown.moreClasses.trans begun.new
  generalize start.pushClass _ = formed at begun whole ⊢
  generalize start.nextClass = k at *
  have mine : StandsFor lib c (hidden.insert k _ w) formed given :=
    stands.merging begun.sound whole begun.onward (by
      rintro (hides | rfl)
      · exact stands.opened.2 hides
      · exact absurd begun.new (Nat.not_le.2 stands.opened.1))
  unfold complete
  rw [single, ensures_bind]
  -- there is one clause only, and it cannot be merged
  refine ensures_forIn _ _ _ (fun done _ next => done = [] ∧ next = formed) ⟨rfl, rfl⟩ ?_ ?_
  · rintro done x rest ⟨⟩ next all ⟨rfl, rfl⟩
    obtain ⟨rfl, -⟩ := List.cons.inj all
    exact (mine.mergeBase_fails original begun new known inside elementary found here there itself
      further).bind fun _ _ no => no.elim
  · rintro ⟨⟩ next ⟨absent, -⟩
    cases absent

theorem mergeBases_ends (known : c.In lib) (ends : lib.Ends fuel c e) : Fails lib fuel c e := by
  induction ends with
  | deep => exact fun _ _ _ _ _ _ _ => (ensures_throw _).2 rfl
  | itself leads here there =>
    exact fails_step original known leads here there (fun _ => rfl) fun differ => (differ rfl).elim
  | further leads here there differ _ ih =>
    obtain ⟨r, -, -, found⟩ := base?_eq_some leads
    refine fails_step original known leads here there (fun same => (differ same).elim) fun _ => ih ?_
    exact (open_findClass? original.sound _ _ _ (names_ne_nil r) found).1

end Line

-- A class from which the clauses lead back cannot be flattened. Where each class on the way has a single base,
-- the error names a class that extends itself only if some class extends one of its own full name. Otherwise
-- the inheritance is followed without end.
theorem flatten_leadsBack {lib : Library} {root c : ClassId} {r : ComponentRef}
    (original : lib.Original) (named : classNamed root r lib = .ok c lib) (back : lib.LeadsBack c) :
    ∃ e next, flatten root r lib = .error e next ∧ (lib.Whole → lib.Line c →
      (lib.Repeats c → ∃ text, e = .extendsItself text) ∧ (¬ lib.Repeats c → e = .unbounded)) := by
  have sound := original.sound
  have known := (open_findClass? sound _ root c (names_ne_nil r) (findClass?_of_classNamed named)).1
  have around := fun p has => ((sound.closed c).parent p has).1
  have stuck := flatten_fails named (mergeBases_stuck sound _ _ le_rfl .none lib c none _ c sound
    ⟨known, not_false⟩ around (.refl lib) known rfl (back.inherits _))
  obtain ⟨e, next, run, -⟩ := stuck.fails
  have exact_ : lib.Whole → ∀ e', lib.Ends (4 * lib.size + 32) c e' → e = e' := by
    intro whole e' ends
    have fails := mergeBases_ends original known ends .none lib c none _
      ⟨sound, whole, ⟨known, not_false⟩, .refl lib, rfl, rfl⟩ around
    obtain ⟨_, _, again, rfl⟩ := (flatten_fails named fails).fails
    exact (EStateM.Result.error.inj (run.symm.trans again)).1
  refine ⟨e, next, run, fun whole line => ⟨?_, fun never => ?_⟩⟩
  · rintro ⟨b, d, text, reached, leads, here, there⟩
    obtain ⟨i, far⟩ := line.follow reached
    have inside : ∀ i e, follow lib.base? c i = some e → e.index < lib.classes.size := by
      rintro (_ | i) e found
      · cases found
        exact known
      · obtain ⟨d, -, leads⟩ := Option.bind_eq_some_iff.1 found
        obtain ⟨r, -, -, found⟩ := base?_eq_some leads
        exact (open_findClass? sound _ d e (names_ne_nil r) found).1
    obtain ⟨j, less, near⟩ := follow_near lib.base? c lib.classes.size inside i b far
    have size : j < 4 * lib.size + 32 := by
      unfold Library.size
      omega
    obtain ⟨text, ends⟩ := line.ends_itself size near leads here there
    exact ⟨text, exact_ whole _ ends⟩
  · exact exact_ whole _ (line.ends_deep back never _)

def mutualBases : Library where
  classes := #[
    { classes := ⟨[(some "A", ⟨1⟩), (some "B", ⟨2⟩)]⟩, role := .root, origin := ⟨0⟩ },
    model 1 "A" 0 [] [] [⟨.simple "B", ⟨0⟩, .public_⟩],
    model 2 "B" 0 [] [] [⟨.simple "A", ⟨1⟩, .public_⟩]]
  symbols := #[]
  modifications := #[⟨[]⟩, ⟨[]⟩]
  arguments := #[]

theorem mutualBases_extends (leads : mutualBases.Extends c b) (here : c = ⟨1⟩ ∨ c = ⟨2⟩) :
    c = ⟨1⟩ ∧ b = ⟨2⟩ ∨ c = ⟨2⟩ ∧ b = ⟨1⟩ := by
  obtain rfl | rfl := here
  · have found := leads.base? (by decide)
    exact .inl ⟨rfl, (Option.some.inj ((show mutualBases.base? ⟨1⟩ = some ⟨2⟩ by decide).symm.trans found)).symm⟩
  · have found := leads.base? (by decide)
    exact .inr ⟨rfl, (Option.some.inj ((show mutualBases.base? ⟨2⟩ = some ⟨1⟩ by decide).symm.trans found)).symm⟩

def unending {α : Type} (x : Build α) (lib : Library) : Bool :=
  match x lib with
  | .error .unbounded _ => true
  | _ => false

theorem exists_of_unending (x : Build α) (lib : Library) (runs : x.unending lib = true) :
    ∃ next, x lib = .error .unbounded next := by
  unfold unending at runs
  split at runs
  · next next failed => exact ⟨next, failed⟩
  · cases runs

-- Neither of the two models is found to extend itself: following them has no end.
theorem mutualBases_unbounded :
    ∃ next, flatten ⟨0⟩ (.simple "A") mutualBases = .error .unbounded next :=
  exists_of_unending _ _ (by decide +kernel)

theorem mutualBases_leadsBack : mutualBases.Original ∧ mutualBases.Whole ∧ mutualBases.LeadsBack ⟨1⟩ ∧
    mutualBases.Line ⟨1⟩ ∧ ¬ mutualBases.Repeats ⟨1⟩ ∧
    ∃ next, flatten ⟨0⟩ (.simple "A") mutualBases = .error .unbounded next := by
  have first : mutualBases.Extends ⟨1⟩ ⟨2⟩ :=
    ⟨.simple "B", List.mem_singleton_self _, by decide, by decide⟩
  have second : mutualBases.Extends ⟨2⟩ ⟨1⟩ :=
    ⟨.simple "A", List.mem_singleton_self _, by decide, by decide⟩
  have original : mutualBases.Original := by decide
  have whole : mutualBases.Whole := whole_of_isWhole (by decide)
  have back : mutualBases.LeadsBack ⟨1⟩ := ⟨⟨1⟩, .refl, .tail (.single first) second⟩
  have reached : ∀ b, Relation.ReflTransGen mutualBases.Extends ⟨1⟩ b → b = ⟨1⟩ ∨ b = ⟨2⟩ := by
    intro b way
    induction way with
    | refl => exact .inl rfl
    | tail _ leads ih =>
      obtain ⟨-, rfl⟩ | ⟨-, rfl⟩ := mutualBases_extends leads ih
      · exact .inr rfl
      · exact .inl rfl
  have top : mutualBases.Depth ⟨0⟩ 0 := .top (by decide)
  have nameA : mutualBases.FullName ⟨1⟩ "A" := ⟨⟨1, .inner (by decide) top⟩, by rfl⟩
  have nameB : mutualBases.FullName ⟨2⟩ "B" := ⟨⟨1, .inner (by decide) top⟩, by rfl⟩
  have line : mutualBases.Line ⟨1⟩ := by
    intro b way
    obtain rfl | rfl := reached b way
    · exact ⟨by decide, "A", nameA⟩
    · exact ⟨by decide, "B", nameB⟩
  have never : ¬ mutualBases.Repeats ⟨1⟩ := by
    rintro ⟨b, d, text, way, leads, here, there⟩
    obtain ⟨rfl, rfl⟩ | ⟨rfl, rfl⟩ := mutualBases_extends leads (reached b way)
    · exact absurd ((here.unique nameA).symm.trans (there.unique nameB)) (by decide)
    · exact absurd ((here.unique nameB).symm.trans (there.unique nameA)) (by decide)
  have named : classNamed ⟨0⟩ (.simple "A") mutualBases = .ok ⟨1⟩ mutualBases := rfl
  obtain ⟨e, next, run, error⟩ := flatten_leadsBack original named back
  obtain rfl := (error whole line).2 never
  exact ⟨original, whole, back, line, never, next, run⟩

end Build

end Modelica
