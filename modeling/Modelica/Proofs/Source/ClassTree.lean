import Modelica.Proofs.Source.Manner

set_option autoImplicit false

namespace Modelica

open OrderedMap

namespace Library

variable {lib : Library} {root : ClassId}

theorem Below.entry {x e : ClassId} {k : Option String} (below : lib.Below root x)
    (found : (lib.classOf x).classes.find? k = some e) : lib.Below root e := by
  obtain ⟨p, above⟩ := below
  exact ⟨p ++ [k], (at?_snoc above).trans found⟩

end Library

namespace Define

open Build Library Manner

variable {α β : Type} {low : Nat} {opened rest : List ClassId} {lib now next : Library} {c id : ClassId}

def Unmoved (lib next : Library) (c : ClassId) : Prop :=
  (next.classOf c).name = (lib.classOf c).name ∧ (next.classOf c).classes = (lib.classOf c).classes ∧
    (next.classOf c).parent = (lib.classOf c).parent

theorem Unmoved.of_eq {c : ClassId} (same : next.classOf c = lib.classOf c) : Unmoved lib next c := by
  rw [Unmoved, same]
  exact ⟨rfl, rfl, rfl⟩

theorem Unmoved.trans {c : ClassId} (first : Unmoved lib now c) (second : Unmoved now next c) : Unmoved lib next c :=
  ⟨second.1.trans first.1, second.2.1.trans first.2.1, second.2.2.trans first.2.2⟩

structure Alike (lib next : Library) : Prop where
  size : next.classes.size = lib.classes.size
  same : ∀ c, Unmoved lib next c

theorem Alike.of_classes (same : next.classes = lib.classes) : Alike lib next :=
  ⟨by rw [same], fun c => .of_eq (by rw [Library.classOf, same]; rfl)⟩

theorem Alike.trans (first : Alike lib now) (second : Alike now next) : Alike lib next :=
  ⟨second.size.trans first.size, fun c => (first.same c).trans (second.same c)⟩

theorem Alike.modifyClass (lib : Library) (c : ClassId) {f : ClassDef → ClassDef}
    (same : ∀ d, (f d).name = d.name ∧ (f d).classes = d.classes ∧ (f d).parent = d.parent) :
    Alike lib (lib.modifyClass c f) :=
  ⟨classes_size_modifyClass .., fun _ => getD_modify_of lib.classes _ _ _ _
    (motive := fun d => d.name = _ ∧ d.classes = _ ∧ d.parent = _) ⟨rfl, rfl, rfl⟩ fun _ _ => same _⟩

-- No part of a class other than a class inside changes which classes there are, what they are called and where
-- they stand.
def quiet : Manner where
  holds _ _ x := ∀ r lib, Build.Ensures (x r) lib (fun o next => o.2.classes = r.classes ∧ Alike lib next) fun _ _ => True
  pure _ _ _ := .pure ⟨rfl, .of_classes rfl⟩
  throw _ _ _ := .throw
  bind first second r lib := Ensures.bind (first r lib) fun p now is => (second p.1 p.2 now).imp fun _ _ is' =>
    ⟨is'.1.trans is.1, is.2.trans is'.2⟩
  weaken is := is
  addModification _ _ _ := .of_eq rfl ⟨rfl, .of_classes rfl⟩
  addArgument _ _ _ _ _ := .of_eq rfl ⟨rfl, .of_classes rfl⟩
  enterElementModification r lib := by
    refine (ensures_read_modify r _).2 ⟨?_, .of_classes rfl⟩
    split <;> rfl
  look same r lib := by
    obtain ⟨a, run⟩ := same r lib
    exact .of_eq run ⟨rfl, .of_classes rfl⟩
  updateModification _ _ _ _ := .of_eq rfl ⟨rfl, .of_classes rfl⟩
  updateSymbol _ _ _ _ _ := .of_eq rfl ⟨rfl, .of_classes rfl⟩
  updateClass c f same _ lib := by
    refine .of_eq rfl ⟨rfl, .modifyClass lib c fun d => ?_⟩
    obtain ⟨_, _, eq⟩ := same d
    rw [eq]
    exact ⟨rfl, rfl, rfl⟩
  leaveSymbol _ _ := .of_eq rfl ⟨rfl, .of_classes rfl⟩
  inExtends _ _ _ := .of_eq rfl ⟨rfl, .of_classes rfl⟩
  enterClause _ _ _ _ := .of_eq rfl ⟨rfl, .of_classes rfl⟩
  enterSymbol _ _ := .of_eq rfl ⟨rfl, .of_classes rfl⟩

theorem quiet_updateClass (c : ClassId) {f : ClassDef → ClassDef}
    (same : ∀ d, (f d).name = d.name ∧ (f d).classes = d.classes ∧ (f d).parent = d.parent := by
      exact fun _ => ⟨rfl, rfl, rfl⟩) : quiet.holds false (lift (Build.updateClass c f)) :=
  fun _ lib => .of_eq rfl ⟨rfl, .modifyClass lib c same⟩

theorem quiet_setVisibility (v : Visibility) (placed : List Placed) : quiet.holds false (setVisibility v placed) := by
  unfold setVisibility
  refine seen fun c => (forEach _ (fun p _ => ?_) _).ends
  cases p with
  | symbols ids => refine (forEach _ (fun s _ => .ends fun _ _ => .of_eq rfl ⟨rfl, .of_classes rfl⟩) _).ends
  | extends_ index => exact (quiet_updateClass c).ends
  | other => exact quiet.pure _

theorem find?_of_inserted {outer x e : ClassId} {name k : Option String}
    (here : (next.classOf outer).classes = (lib.classOf outer).classes.insert name id)
    (elsewhere : outer ≠ x → (next.classOf x).classes = (lib.classOf x).classes)
    (found : (next.classOf x).classes.find? k = some e) :
    (x = outer ∧ e = id) ∧ k = name ∨ (lib.classOf x).classes.find? k = some e := by
  obtain rfl | other := eq_or_ne outer x
  · rw [here] at found
    obtain rfl | differ := eq_or_ne k name
    · rw [find?_insert_self] at found
      exact .inl ⟨⟨rfl, (Option.some.inj found).symm⟩, rfl⟩
    · rw [find?_insert_ne _ differ] at found
      exact .inr found
  · rw [elsewhere other] at found
    exact .inr found

-- The classes from a number on, some of which are open. What a class holds is closed, is held under its name,
-- and is held by no other class.
structure Grove (low : Nat) (opened : List ClassId) (lib : Library) : Prop where
  distinct : opened.Nodup
  known : ∀ c ∈ opened, low ≤ c.index ∧ c.index < lib.classes.size
  keys : ∀ x : ClassId, low ≤ x.index → (lib.classOf x).classes.keys.Nodup
  entry : ∀ x : ClassId, low ≤ x.index → ∀ k e, (lib.classOf x).classes.find? k = some e →
    (low ≤ e.index ∧ e.index < lib.classes.size) ∧ (lib.classOf e).name = k ∧ e ∉ opened
  single : ∀ x y : ClassId, low ≤ x.index → low ≤ y.index → ∀ k e, (lib.classOf x).classes.find? k = some e →
    (lib.classOf y).classes.find? k = some e → x = y

namespace Grove

theorem close (grove : Grove low (id :: opened) lib) (outer : ClassId)
    (range : low ≤ outer.index ∧ outer.In lib) :
    Grove low opened (lib.modifyClass outer fun d => { d with classes := d.classes.insert (lib.classOf id).name id }) := by
  obtain ⟨next, same, here, elsewhere, size⟩ := exists_modifyClass lib outer _ range.2
  rw [same]
  have names : ∀ x, (next.classOf x).name = (lib.classOf x).name := by
    intro x
    obtain rfl | other := eq_or_ne outer x
    · rw [here]
    · rw [elsewhere x other]
  have find : ∀ x k e, (next.classOf x).classes.find? k = some e →
      (x = outer ∧ e = id) ∧ k = (lib.classOf id).name ∨ (lib.classOf x).classes.find? k = some e := by
    exact fun x k e => find?_of_inserted (by rw [here]) fun other => by rw [elsewhere x other]
  -- While it was open no class held it, so no table but the one of the outer class has it now.
  have old : ∀ x : ClassId, low ≤ x.index → ∀ k, (lib.classOf x).classes.find? k ≠ some id := fun x above k found =>
    (grove.entry x above k id found).2.2 List.mem_cons_self
  obtain ⟨outside, distinct⟩ := List.nodup_cons.1 grove.distinct
  obtain ⟨own, known⟩ := List.forall_mem_cons.1 grove.known
  refine ⟨distinct, fun c member => size ▸ known c member, fun x above => ?_, fun x above k e found => ?_,
    fun x y above above' k e first second => ?_⟩
  · obtain rfl | other := eq_or_ne outer x
    · rw [here]
      exact nodup_insert _ (grove.keys outer above) _ _
    · rw [elsewhere x other]
      exact grove.keys x above
  · rw [size, names]
    obtain ⟨⟨-, rfl⟩, rfl⟩ | before := find x k e found
    · exact ⟨own, rfl, outside⟩
    · exact (grove.entry x above k e before).imp_right fun is => is.imp_right List.not_mem_of_not_mem_cons
  · obtain ⟨⟨rfl, rfl⟩, -⟩ | before := find x k e first
    · obtain ⟨⟨rfl, -⟩, -⟩ | before' := find y k e second
      · rfl
      · exact absurd before' (old y above' k)
    · obtain ⟨⟨rfl, rfl⟩, -⟩ | before' := find y k e second
      · exact absurd before (old x above k)
      · exact grove.single x y above above' k e before before'

variable (grove : Grove low opened lib)
include grove

theorem congr (size : lib.classes.size ≤ next.classes.size)
    (classes : ∀ x, (next.classOf x).classes = (lib.classOf x).classes)
    (names : ∀ x, x ∉ opened → x.In lib → (next.classOf x).name = (lib.classOf x).name) :
    Grove low opened next := by
  refine ⟨grove.distinct, fun c member => ?_, fun x above => ?_, fun x above k e found => ?_, fun x y above above' k e => ?_⟩
  · exact (grove.known c member).imp_right fun less => less.trans_le size
  · rw [classes]
    exact grove.keys x above
  · rw [classes] at found
    obtain ⟨⟨le, less⟩, name, closed⟩ := grove.entry x above k e found
    exact ⟨⟨le, less.trans_le size⟩, (names e closed less).trans name, closed⟩
  · rw [classes, classes]
    exact grove.single x y above above' k e

theorem push (le : low ≤ lib.classes.size) {d : ClassDef} (empty : d.classes = .empty) :
    Grove low (lib.nextClass :: opened) (lib.pushClass d) := by
  have fresh : ∀ x : ClassId, x.In lib → x ≠ lib.nextClass := by
    rintro _ less rfl
    exact lt_irrefl _ less
  have classes : ∀ x, ((lib.pushClass d).classOf x).classes = (lib.classOf x).classes := by
    intro x
    obtain rfl | other := eq_or_ne x lib.nextClass
    · rw [classOf_pushClass_self, empty]
      simp [Library.classOf, nextClass]
    · rw [classOf_pushClass_ne _ _ _ fun same => other (congrArg ClassId.mk same)]
  have whole : Grove low opened (lib.pushClass d) := grove.congr (by simp) classes fun x _ less => by
    rw [classOf_pushClass_ne _ _ _ less.ne]
  refine ⟨List.nodup_cons.2 ⟨fun member => ?_, grove.distinct⟩, ?_, whole.keys, fun x above k e found => ?_, whole.single⟩
  · exact fresh _ (grove.known _ member).2 rfl
  · refine List.forall_mem_cons.2 ⟨⟨le, ?_⟩, whole.known⟩
    exact nextClass_lt ..
  · obtain ⟨range, name, closed⟩ := whole.entry x above k e found
    rw [classes] at found
    exact ⟨range, name, List.not_mem_cons_of_ne_of_not_mem (fresh e (grove.entry x above k e found).1.2) closed⟩

theorem range (start : low ≤ c.index ∧ c.In lib) {x : ClassId}
    (below : lib.Below c x) : low ≤ x.index ∧ x.In lib := by
  obtain ⟨p, found⟩ := below
  induction p generalizing c with
  | nil =>
    cases found
    exact start
  | cons k p ih =>
    obtain ⟨e, here, onward⟩ := Option.bind_eq_some_iff.1 found
    exact ih (grove.entry c start.1 k e here).1 onward

theorem nest (member : c ∈ opened) : lib.Nest c := by
  have range := fun x => grove.range (x := x) (grove.known c member)
  refine ⟨fun x below => (range x below).2, fun x below => grove.keys x (range x below).1, fun p q _ here there =>
    (at?_unique range range (fun x above k => ?_) (fun x y above above' j k e here there => ?_) p q here there).2⟩
  · exact (and_self_iff (a := _ ≠ _)).2 fun found => (grove.entry x above.1 k c found).2.2 member
  · obtain rfl := (grove.entry x above.1 j e here).2.1.symm.trans (grove.entry y above'.1 k e there).2.1
    exact ⟨grove.single x y above.1 above'.1 j e here there, rfl⟩

end Grove

structure Kept (low : Nat) (opened : List ClassId) (lib next : Library) : Prop where
  grove : Grove low opened next
  size : lib.classes.size ≤ next.classes.size
  old : ∀ x : ClassId, x.index < low ∨ x ∈ opened.tail → Unmoved lib next x

def Keeps (low : Nat) (opened : List ClassId) (x : Read α) : Prop :=
  ∀ r lib, r.classes = opened → Grove low opened lib → Build.Ensures (x r) lib
    (fun o next => o.2.classes = opened ∧ Kept low opened lib next) fun _ _ => True

theorem Kept.trans (first : Kept low opened lib now) (second : Kept low opened now next) : Kept low opened lib next :=
  ⟨second.grove, first.size.trans second.size, fun x is => (first.old x is).trans (second.old x is)⟩

theorem Kept.of_alike (grove : Grove low opened lib) (alike : Alike lib next) : Kept low opened lib next :=
  ⟨grove.congr alike.size.ge (fun x => (alike.same x).2.1) fun x _ _ => (alike.same x).1, alike.size.ge, fun x _ =>
    alike.same x⟩

theorem Manner.holds.keeps {x : Read α} (first : quiet.holds false x) : Keeps low opened x := fun r lib stack grove =>
  (first r lib).imp fun _ _ is => ⟨is.1.trans stack, .of_alike grove is.2⟩

theorem Keeps.bind {x : Read α} {f : α → Read β} (first : Keeps low opened x) (second : ∀ a, Keeps low opened (f a)) :
    Keeps low opened (x >>= f) := by
  intro r lib stack grove
  refine Ensures.bind (first r lib stack grove) ?_
  rintro o now ⟨stack', kept⟩
  refine (second o.1 o.2 now stack' kept.grove).imp ?_
  rintro o' next ⟨stack'', kept'⟩
  exact ⟨stack'', kept.trans kept'⟩

theorem Keeps.updateClass {f : ClassDef → ClassDef} (same : ∀ d, (f d).classes = d.classes := by exact fun _ => rfl) :
    Keeps low (id :: rest) (lift (Build.updateClass id f)) := by
  intro r lib stack grove
  rw [ensures_read_lift, ensures_updateClass]
  have own := (grove.known id List.mem_cons_self)
  have elsewhere := fun x => classOf_modifyClass_ne lib id x f
  refine ⟨stack, grove.congr (classes_size_modifyClass ..).ge (fun x => ?_) (fun x closed _ => ?_),
    (classes_size_modifyClass ..).ge, fun x is => .of_eq (elsewhere x ?_)⟩
  · obtain rfl | other := eq_or_ne id x
    · rw [classOf_modifyClass_self _ _ _ own.2, same]
    · rw [elsewhere x other]
  · rw [elsewhere x (List.ne_of_not_mem_cons closed).symm]
  · rintro rfl
    exact is.elim (not_lt.2 own.1) (List.nodup_cons.1 grove.distinct).1

structure Grown (low : Nat) (c : ClassId) (rest : List ClassId) (id : ClassId) (lib next : Library) : Prop
    extends Kept low (c :: rest) lib next where
  table : (next.classOf c).classes = (lib.classOf c).classes.insert (next.classOf id).name id

def Grows (low : Nat) (opened : List ClassId) (c : ClassId) (rest : List ClassId) (x : Read ClassId) : Prop :=
  ∀ r lib, r.classes = opened → Grove low opened lib → Build.Ensures (x r) lib
    (fun o next => o.2.classes = c :: rest ∧ Grown low c rest o.1 lib next) fun _ _ => True

theorem Grows.keeps {x : Read ClassId} (grows : Grows low (c :: rest) c rest x) : Keeps low (c :: rest) x :=
  fun r lib stack grove => (grows r lib stack grove).imp fun _ _ is => ⟨is.1, is.2.toKept⟩

theorem Keeps.grows {x : Read α} {f : α → Read ClassId} (first : Keeps low (id :: c :: rest) x)
    (second : ∀ a, Grows low (id :: c :: rest) c rest (f a)) : Grows low (id :: c :: rest) c rest (x >>= f) := by
  intro r lib stack grove
  refine Ensures.bind (first r lib stack grove) ?_
  rintro o now ⟨stack', kept⟩
  refine (second o.1 o.2 now stack' kept.grove).imp ?_
  rintro o' next ⟨stack'', grown⟩
  refine ⟨stack'', ⟨grown.grove, kept.size.trans grown.size, fun x is => ?_⟩, ?_⟩
  · exact (kept.old x (is.imp_right (List.mem_cons_of_mem c))).trans (grown.old x is)
  · rw [grown.table, (kept.old c (.inr List.mem_cons_self)).2.1]

theorem grows_closing (low : Nat) (id c : ClassId) (rest : List ClassId) : Grows low (id :: c :: rest) c rest (do
    modify fun r => { r with classes := r.classes.tail }
    let outer ← currentClass
    let name := (← lift (Build.classOf id)).name
    lift (Build.updateClass outer fun d => { d with classes := d.classes.insert name id })
    return id) := by
  intro r lib stack grove
  rw [ensures_read_bind, ensures_read_modify, ensures_read_bind, ensures_read_currentClass, ensures_read_bind,
    ensures_read_lift, ensures_classOf, ensures_read_bind, ensures_read_lift, ensures_updateClass, ensures_read_pure]
  dsimp only
  rw [stack, List.tail_cons, List.head?_cons, Option.getD_some]
  obtain ⟨outside, distinct⟩ := List.nodup_cons.1 grove.distinct
  have range := grove.known c (List.mem_cons_of_mem _ List.mem_cons_self)
  have other : c ≠ id := by
    rintro rfl
    exact outside List.mem_cons_self
  refine ⟨rfl, ⟨grove.close c range, (classes_size_modifyClass ..).ge, fun x is => .of_eq ?_⟩, ?_⟩
  · refine classOf_modifyClass_ne _ _ _ _ ?_
    rintro rfl
    exact is.elim (not_lt.2 range.1) (List.nodup_cons.1 distinct).1
  · rw [classOf_modifyClass_self _ _ _ range.2, classOf_modifyClass_ne _ _ _ _ other]

theorem grows_opening {new : ClassId → ClassDef} {f : ClassId → Read ClassId}
    (grows : ∀ id, Grows low (id :: c :: rest) c rest (f id))
    (empty : ∀ id, (new id).classes = .empty := by exact fun _ => rfl) : Grows low (c :: rest) c rest (do
      let id ← lift (Build.addClass new)
      modify fun r => { r with classes := id :: r.classes }
      f id) := by
  intro r lib stack grove
  rw [ensures_read_bind, ensures_read_lift, ensures_addClass, ensures_read_bind, ensures_read_modify]
  have range := grove.known c List.mem_cons_self
  have before : ∀ x : ClassId, x.In lib →
      (lib.pushClass (new lib.nextClass)).classOf x = lib.classOf x := fun x less => classOf_pushClass_ne _ _ _ less.ne
  refine (grows lib.nextClass _ _ (by rw [stack]) (grove.push (by omega) (empty _))).imp ?_
  rintro o next ⟨stack', grown⟩
  refine ⟨stack', ⟨grown.grove, ?_, fun x is => (Unmoved.of_eq (before x ?_)).trans (grown.old x is)⟩, ?_⟩
  · have size := grown.size
    rw [classes_size_pushClass] at size
    omega
  · obtain less | member := is
    · omega
    · exact (grove.known x (List.mem_cons_of_mem c member)).2
  · rw [grown.table, before c range.2]

mutual

theorem classDefinition_grows (low : Nat) (c : ClassId) (rest : List ClassId) : ∀ d : Source.ClassDefinition,
    Grows low (c :: rest) c rest (classDefinition d)
  | .mk _ _ _ (.long _ change _ body) => by
    unfold classDefinition
    exact grows_opening fun id => (optionalModification_holds quiet change).any.keeps.grows fun m =>
      (composition_keeps low id (c :: rest) body).grows fun _ => Keeps.grows .updateClass fun _ => grows_closing low id c rest
  | .mk _ _ _ (.base _ _ change note) => by
    unfold classDefinition
    refine grows_opening fun id => (quiet.ofExcept _).keeps.grows fun r =>
      (optionalModification_holds quiet change).any.keeps.grows fun m => (comment_holds quiet note).any.keeps.grows fun text => ?_
    cases m with
    | some m => exact (quiet.pure m).keeps.grows fun m => Keeps.grows .updateClass fun _ => grows_closing low id c rest
    | none =>
      exact (quiet.addModification []).keeps.grows fun m => Keeps.grows .updateClass fun _ => grows_closing low id c rest
  | .mk _ _ _ (.enumeration literals note) => by
    unfold classDefinition
    exact grows_opening fun id => (comments_holds quiet literals).any.keeps.grows fun _ =>
      (comment_holds quiet note).any.keeps.grows fun _ => grows_closing low id c rest
  | .mk _ _ _ (.derivative note) => by
    unfold classDefinition
    exact grows_opening fun id => (comment_holds quiet note).any.keeps.grows fun _ => grows_closing low id c rest
  | .mk _ _ _ (.extending change body) => by
    unfold classDefinition
    exact grows_opening fun id => (optionalModification_holds quiet change).any.keeps.grows fun _ =>
      (composition_keeps low id (c :: rest) body).grows fun _ => grows_closing low id c rest

theorem composition_keeps (low : Nat) (c : ClassId) (rest : List ClassId) : ∀ body : Source.Composition,
    Keeps low (c :: rest) (composition body)
  | .mk leading parts external annotated => by
    unfold composition
    refine (elements_keeps low c rest leading).bind fun first => (sections_keeps low c rest {} parts).bind fun body => ?_
    refine holds.keeps ((externalClause_holds quiet external).bind fun _ => (optionalModification_holds quiet annotated).any.bind
      fun _ => (quiet_setVisibility _ _).bind fun _ => (quiet_setVisibility _ _).bind fun _ => (quiet_setVisibility _ _).bind
        fun _ => seen fun c => (quiet_updateClass c).bind fun _ => ?_)
    split
    · exact (quiet.throw _).bind fun _ => quiet_updateClass c
    · exact quiet_updateClass c

theorem sections_keeps (low : Nat) (c : ClassId) (rest : List ClassId) (body : Body) : ∀ parts : List Source.Section,
    Keeps low (c :: rest) (sections body parts)
  | [] => by
    unfold sections
    exact (quiet.pure _).keeps
  | .visible _ es :: parts => by
    unfold sections
    refine (elements_keeps low c rest es).bind fun _ => ?_
    split <;> exact sections_keeps low c rest _ parts
  | .equations _ es :: parts => by
    unfold sections
    refine (equations_holds quiet es).keeps.bind fun _ => ?_
    split <;> exact sections_keeps low c rest _ parts
  | .statements _ ss :: parts => by
    unfold sections
    refine (statements_holds quiet ss).keeps.bind fun _ => ?_
    split <;> exact sections_keeps low c rest _ parts
  | .constraints _ cs :: parts => by
    unfold sections
    refine (constraints_holds quiet cs).keeps.bind fun _ => ?_
    split <;> exact sections_keeps low c rest _ parts

theorem elements_keeps (low : Nat) (c : ClassId) (rest : List ClassId) : ∀ es : List Source.Element,
    Keeps low (c :: rest) (elements es)
  | [] => by
    unfold elements
    exact (quiet.pure _).keeps
  | e :: es => by
    unfold elements
    exact (element_keeps low c rest e).bind fun _ => (elements_keeps low c rest es).bind fun _ => (quiet.pure _).keeps

theorem element_keeps (low : Nat) (c : ClassId) (rest : List ClassId) : ∀ e : Source.Element,
    Keeps low (c :: rest) (element e)
  | .import_ clause => by
    unfold element
    exact (importClause_holds quiet clause).ends.keeps
  | .extends_ component change annotated => by
    have last : ∀ (base : ComponentRef) (m : ModificationId), quiet.holds false (do
        let c ← currentClass
        let index := (← lift (Build.classOf c)).extends_.length
        lift (Build.updateClass c fun d =>
          { d with extends_ := d.extends_ ++ [{ component := base, modification := m }] })
        modify fun r => { r with inExtends := false }
        return Placed.extends_ index : Read Placed) := fun base m =>
      seen fun c => seen fun d => (quiet_updateClass c).bind fun _ => (quiet.inExtends _).ends
    unfold element
    refine holds.keeps ((quiet.inExtends _).bind fun _ => value fun base =>
      (optionalModification_holds quiet change).any.bind fun m =>
        (optionalModification_holds quiet annotated).any.bind fun _ => ?_)
    cases m with
    | some m => exact last base m
    | none => exact (quiet.addModification []).bind fun m => last base m
  | .class_ definition k => by
    unfold element
    exact (classDefinition_grows low c rest definition).keeps.bind fun _ => (constraining_holds quiet k).ends.keeps
  | .component clause k => by
    unfold element
    exact ((componentClause_holds quiet clause).bind fun _ => (constraining_holds quiet k).ends).keeps

end

theorem storedClasses_kept (stored : List Source.StoredClass) (found : OrderedMap (Option String) ClassId) (r : Reading)
    (lib : Library) (stack : r.classes = [c]) (grove : Grove low [c] lib) (same : found = (lib.classOf c).classes) :
    Build.Ensures (storedClasses stored found r) lib
      (fun o next => Kept low [c] lib next ∧ o.1 = (next.classOf c).classes) anyhow := by
  induction stored generalizing found r lib with
  | nil =>
    unfold storedClasses
    rw [ensures_read_pure]
    exact ⟨.of_alike grove (.of_classes rfl), same⟩
  | cons s rest ih =>
    unfold storedClasses
    rw [ensures_read_bind]
    refine (classDefinition_grows low c [] s.definition r lib stack grove).imp ?_
    rintro o now ⟨stack', grown⟩
    rw [ensures_read_bind, ensures_read_lift, ensures_updateClass, ensures_read_bind, ensures_read_lift, ensures_classOf]
    have alike : Alike now (now.modifyClass o.1 fun d => { d with final := s.final }) :=
      .modifyClass now o.1 fun _ => ⟨rfl, rfl, rfl⟩
    -- What has been found so far is the table of the class that all are read into.
    have kept := grown.toKept.trans (.of_alike grown.grove alike)
    refine (ih _ o.2 _ stack' kept.grove ?_).imp fun o' next is => ⟨kept.trans is.1, is.2⟩
    rw [(alike.same c).2.1, (alike.same o.1).1, grown.table, same]

theorem packages_grove (path : List String) (outer : ClassId) (lib : Library) (grove : Grove low opened lib)
    (range : low ≤ outer.index ∧ outer.index < lib.classes.size) (empty : (lib.classOf outer).classes = .empty) :
    (packages outer path).Returns lib fun inner next => Grove low opened next ∧ outer.index ≤ inner.index ∧
      inner.index < next.classes.size ∧ (next.classOf inner).classes = .empty ∧ lib.classes.size ≤ next.classes.size ∧
      ∀ x : ClassId, x.index < outer.index → next.classOf x = lib.classOf x := by
  induction path generalizing outer lib with
  | nil => exact (ensures_pure outer).2 ⟨grove, le_refl _, range.2, empty, le_refl _, fun _ _ => rfl⟩
  | cons n path ih =>
    unfold packages
    rw [Returns, ensures_bind, ensures_addClass, bind_updateClass]
    have pushed := grove.push (d := { name := some n, type := "package", origin := lib.nextClass }) (by omega) rfl
    have closed := pushed.close outer ⟨range.1, by simp; omega⟩
    rw [classOf_pushClass_self] at closed
    have other : outer ≠ lib.nextClass := by
      rintro rfl
      exact lt_irrefl _ range.2
    have size : ((lib.pushClass { name := some n, type := "package", origin := lib.nextClass }).modifyClass outer fun d =>
        { d with classes := d.classes.insert (some n) lib.nextClass }).classes.size = lib.classes.size + 1 := by
      rw [classes_size_modifyClass, classes_size_pushClass]
    refine Ensures.imp (ih lib.nextClass _ closed ⟨range.1.trans range.2.le, ?_⟩ ?_) ?_
    · rw [size]
      exact Nat.lt_succ_self _
    · rw [classOf_modifyClass_ne _ _ _ _ other, classOf_pushClass_self]
    · rintro inner next ⟨grove', le, less, none, more, others⟩
      have after : lib.classes.size ≤ inner.index := le
      refine ⟨grove', by omega, less, none, by omega, fun x before => ?_⟩
      rw [others x (before.trans range.2), classOf_modifyClass_ne, classOf_pushClass_ne _ _ _ (by omega)]
      rintro rfl
      exact lt_irrefl _ before

theorem Grove.hand {root inner base : ClassId} (grove : Grove low [root, base] lib) (first : base.index = low)
    (size : next.classes.size = lib.classes.size) (names : ∀ x, (next.classOf x).name = (lib.classOf x).name)
    (table : (next.classOf inner).classes = (lib.classOf base).classes)
    (others : ∀ x, x ≠ inner → (next.classOf x).classes = (lib.classOf x).classes) : Grove (low + 1) [root] next := by
  -- The tables of the later classes are tables from before, each one of another class.
  have source : ∀ x : ClassId, low + 1 ≤ x.index → ∃ y : ClassId, low ≤ y.index ∧
      (next.classOf x).classes = (lib.classOf y).classes ∧ (y = base ∧ x = inner ∨ y ≠ base ∧ y = x) := by
    intro x above
    obtain rfl | other := eq_or_ne x inner
    · exact ⟨base, first.ge, table, .inl ⟨rfl, rfl⟩⟩
    · refine ⟨x, by omega, others x other, .inr ⟨?_, rfl⟩⟩
      rintro rfl
      omega
  have after : ∀ e : ClassId, low ≤ e.index → e ≠ base → low + 1 ≤ e.index := by
    intro e le differ
    have : e.index ≠ base.index := fun same => differ (congrArg ClassId.mk same)
    omega
  obtain ⟨apart, -⟩ := List.nodup_cons.1 grove.distinct
  obtain ⟨own, -⟩ := List.forall_mem_cons.1 grove.known
  refine ⟨List.nodup_singleton _, ?_, fun x above => ?_, fun x above k e found => ?_, fun x x' above above' k e here there => ?_⟩
  · rintro _ member
    obtain rfl := List.mem_singleton.1 member
    rw [size]
    exact ⟨after _ own.1 (List.ne_of_not_mem_cons apart), own.2⟩
  · obtain ⟨y, le, same, -⟩ := source x above
    rw [same]
    exact grove.keys y le
  · obtain ⟨y, le, same, -⟩ := source x above
    rw [same] at found
    obtain ⟨range, name, closed⟩ := grove.entry y le k e found
    obtain ⟨notRoot, notBase⟩ := not_or.1 (List.mem_cons.not.1 closed)
    rw [size, names]
    exact ⟨⟨after e range.1 (List.ne_of_not_mem_cons notBase), range.2⟩, name, List.mem_singleton.not.2 notRoot⟩
  · obtain ⟨y, le, same, which⟩ := source x above
    obtain ⟨y', le', same', which'⟩ := source x' above'
    rw [same] at here
    rw [same'] at there
    obtain rfl := grove.single y y' le le' k e here there
    obtain ⟨is, rfl⟩ | ⟨isNot, rfl⟩ := which
    · exact (which'.resolve_right fun other => other.1 is).2.symm
    · exact (which'.resolve_left fun other => isNot other.1).2

end Define

namespace Build

open Library Define

structure Consistent (lib : Library) (root : ClassId) : Prop where
  nest : lib.Nest root
  links : ∀ x, lib.Below root x → ∀ k e, (lib.classOf x).classes.find? k = some e →
    (lib.classOf e).name = k ∧ (lib.classOf e).parent = some x

structure Planted (root : ClassId) (lib next : Library) : Prop where
  consistent : Consistent next root
  new : ∀ x, next.Below root x → lib.classes.size ≤ x.index
  size : lib.classes.size ≤ next.classes.size
  old : ∀ x : ClassId, x.index < lib.classes.size → Define.Unmoved lib next x

variable {root : ClassId} {lib now : Library}

theorem linkParents_planted {low : Nat} (grove : Grove low [root] now) (le : lib.classes.size ≤ low)
    (old : ∀ x : ClassId, x.In lib → Define.Unmoved lib now x) :
    (linkParents (now.classes.size + 1) root).Returns now fun _ next => Planted root lib next := by
  have nest := grove.nest List.mem_cons_self
  have start := grove.known root List.mem_cons_self
  refine Ensures.imp (linkParents_linked _ now root nest fun p x found => Nat.lt_succ_of_lt (nest.length_lt found)) ?_
  rintro ⟨⟩ next ⟨rearranged, classes, linked⟩
  -- Linking changes no table, so the paths and what they lead to stay.
  have paths := at?_congr (c := root) fun x (_ : now.Below root x) => classes x
  have back := fun x => (below_congr (x := x) fun x (_ : now.Below root x) => classes x).1
  have names : ∀ x, (next.classOf x).name = (now.classOf x).name := by
    intro x
    obtain ⟨_, _, same⟩ := rearranged.content x
    rw [same]
  have late : ∀ x, now.Below root x → low ≤ x.index := fun x below => (grove.range start below).1
  refine ⟨⟨rearranged.nest nest paths, fun x below k e found => ?_⟩,
    fun x below => le.trans (late x (back x below)), ?_, fun x before => ?_⟩
  · rw [classes] at found
    refine ⟨(names e).trans (grove.entry x (late x (back x below)) k e found).2.1, ?_⟩
    exact linked x (back x below) e (mem_values_of_find? found)
  · rw [rearranged.size]
    omega
  · refine (old x before).trans (.of_eq (rearranged.others x ?_))
    rintro ⟨below, -⟩
    exact absurd (late x below) (by omega)

theorem planting_ensures (path : List String)
    (kept : Define.Kept lib.classes.size [lib.nextClass] (lib.pushClass { origin := lib.nextClass }) now) :
    Build.Ensures (do
      let root ← addClass fun id => { role := .root, origin := id }
      let inner ← Define.packages root path
      updateClass inner fun d => { d with classes := d.classes.union (now.classOf lib.nextClass).classes }
      linkParents ((← get).classes.size + 1) root
      return root) now (fun root next => Planted root lib next) anyhow := by
  have size := kept.size
  rw [classes_size_pushClass] at size
  rw [ensures_bind, ensures_addClass, ensures_bind]
  have rooted := kept.grove.push (d := { role := .root, origin := now.nextClass }) (by omega) rfl
  refine Ensures.mono (packages_grove path now.nextClass _ rooted ⟨(by omega : lib.classes.size ≤ now.classes.size),
    by exact nextClass_lt ..⟩ (by rw [classOf_pushClass_self])) ?_ fun _ _ no => no.elim
  rintro inner mid ⟨grove, le, less, empty, more, before⟩
  rw [classes_size_pushClass] at more
  have le : inner.New now := le
  have same : ∀ x : ClassId, x.In now → mid.classOf x = now.classOf x := fun x old =>
    (before x old).trans (classOf_pushClass_ne _ _ _ old.ne)
  rw [bind_updateClass, bind_get, ensures_bind]
  obtain ⟨full, entered, here, elsewhere, count⟩ := exists_modifyClass mid inner _ less
  rw [entered]
  have whole : Grove (lib.classes.size + 1) [now.nextClass] full := by
    refine grove.hand rfl count (fun x => ?_) ?_ fun x other => by rw [elsewhere x other.symm]
    · obtain rfl | other := eq_or_ne inner x
      · rw [here]
      · rw [elsewhere x other]
    · rw [here, empty, same lib.nextClass size]
      exact empty_union _ (kept.grove.keys _ (le_refl lib.classes.size))
  refine Ensures.mono (linkParents_planted whole (Nat.le_succ _) fun x old => ?_) (fun _ next planted =>
    .pure planted) fun _ _ no => no.elim
  have early : Define.Unmoved lib (lib.pushClass { origin := lib.nextClass }) x :=
    .of_eq (classOf_pushClass_ne _ _ _ old.ne)
  refine (early.trans (kept.old x (.inl old))).trans (.of_eq ?_)
  rw [elsewhere x (by rintro rfl; omega), same x (by omega)]

theorem storedDefinition_planted (file : Source.StoredDefinition) (lib : Library) :
    (storedDefinition file).Ensures lib (fun root next => Planted root lib next) anyhow := by
  unfold storedDefinition
  rw [ensures_bind, ensures_addClass, ensures_bind]
  have bare : Grove lib.classes.size [lib.nextClass] (lib.pushClass { origin := lib.nextClass }) := by
    have none : ∀ x : ClassId, x.New lib → (lib.classOf x).classes = .empty := by
      intro x above
      rw [Library.classOf, Array.getElem?_eq_none above]
      rfl
    refine Grove.push ⟨.nil, by simp, fun x above => ?_, fun x above k e found => ?_, fun x _ above _ k e found => ?_⟩
      (le_refl _) rfl
    · rw [none x above]
      exact .nil
    all_goals
      rw [none x above] at found
      cases found
  suffices read : Build.Ensures _ (lib.pushClass { origin := lib.nextClass })
      (fun (o : (List String × OrderedMap (Option String) ClassId) × Reading) now =>
        Define.Kept lib.classes.size [lib.nextClass] (lib.pushClass { origin := lib.nextClass }) now ∧
          o.1.2 = (now.classOf lib.nextClass).classes) anyhow from read.imp (by
    rintro ⟨⟨path, _⟩, r⟩ now ⟨kept, rfl⟩
    exact planting_ensures path kept)
  have gather : ∀ path : List String, Build.Ensures ((storedClasses file.classes .empty >>= fun found =>
      pure (path, found)) { classes := [lib.nextClass] }) (lib.pushClass { origin := lib.nextClass })
      (fun o now => Define.Kept lib.classes.size [lib.nextClass] (lib.pushClass { origin := lib.nextClass }) now ∧
        o.1.2 = (now.classOf lib.nextClass).classes) anyhow := by
    intro path
    rw [ensures_read_bind]
    refine (storedClasses_kept file.classes .empty _ _ rfl bare (by rw [classOf_pushClass_self])).imp ?_
    exact fun o now is => (ensures_read_pure ..).2 is
  cases file.within with
  | none => exact gather []
  | some r =>
    dsimp only
    cases reference r with
    | error e => exact (ensures_throw e).2 trivial
    | ok base => exact gather base.names

theorem define_planted {text : String} {next : Library} (run : define text lib = .ok root next) :
    Planted root lib next := by
  cases read : Source.read text with
  | error p =>
    rw [define, read] at run
    cases run
  | ok file =>
    rw [define, read] at run
    exact (ensures_of_eq run).1 (storedDefinition_planted file lib)

end Build

end Modelica
