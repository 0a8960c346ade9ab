import Modelica.Library.Flat
import Modelica.Proofs.Expr.Light
import Modelica.Proofs.Library.Copying

set_option autoImplicit false

namespace Modelica

variable (ok : String → Bool)

def Piece.light (p : Piece) : Bool := p.parts.all (Part.light ok)

def ArgumentValue.light (v : ArgumentValue) : Bool := v.pieces.all (Piece.light ok)

def SymbolType.bare : SymbolType → Bool
  | .named r => r.bare
  | _ => true

def Symbol.light (s : Symbol) : Bool := s.type.bare && Expr.allLight ok s.exprs

def ClassDef.light (d : ClassDef) : Bool := d.classes.keys.all fun n => n.all fun n => !ok n

theorem ArgumentValue.light_element (r : ComponentRef) (changes : List Expr) :
    (ArgumentValue.element r changes).light ok = true ↔
      (Part.ref r).light ok = true ∧ Expr.allLight ok changes = true := by
  rw [Expr.allLight_iff]
  simp [light, pieces, Piece.light, Piece.parts, Expr.parts, Expr.light]

theorem ArgumentValue.light_clause (c : ComponentClause) :
    (ArgumentValue.clause c).light ok = true ↔ (Part.ref c.type).light ok = true ∧
      (∀ e ∈ c.dimensions.flatten, e.light ok = true) ∧ c.symbols = [] := by
  obtain ⟨prefixes, type, dimensions, symbols⟩ := c
  have none : symbols.all (fun s => Piece.light ok (.entry (.symbol s))) = true ↔ symbols = [] := by
    cases symbols with
    | nil => simp
    | cons s rest => simp [Piece.light, Piece.parts, Part.light]
  have first : Piece.light ok (.expr (.ref type)) = (Part.ref type).light ok := Expr.light_ref ok type
  rw [light, pieces, List.all_append, List.all_map, List.all_map, List.all_cons, Bool.and_eq_true]
  show ((Piece.light ok (.expr (.ref type)) && _) = true ∧ _) ↔ _
  rw [first, Bool.and_eq_true, and_assoc]
  refine and_congr Iff.rfl (and_congr ?_ none)
  rw [List.all_eq_true]
  exact Iff.rfl

theorem ArgumentValue.light_shortClass (s : ShortClass) :
    (ArgumentValue.shortClass s).light ok = (Part.ref s.component).light ok := by
  simp [light, pieces, Piece.light, Piece.parts, Expr.parts]

theorem Symbol.light_iff (s : Symbol) : s.light ok = true ↔ s.type.bare = true ∧
    (∀ e ∈ s.dimensions.flatten, e.light ok = true) ∧ ∀ a, (s.attr a).light ok = true := by
  rw [Symbol.light, Bool.and_eq_true, Expr.allLight_iff, Symbol.exprs, List.forall_mem_append]
  refine and_congr Iff.rfl (and_congr Iff.rfl ⟨fun all a => ?_, fun all e member => ?_⟩)
  · cases a <;> exact all _ (by simp [Symbol.attr])
  · simp only [List.mem_cons, List.not_mem_nil, or_false] at member
    obtain rfl | rfl | rfl | rfl | rfl | rfl | rfl | rfl | rfl := member
    · exact all .start
    · exact all .min
    · exact all .max
    · exact all .nominal
    · exact all .value
    · exact all .fixed
    · exact all .unit
    · exact all .free
    · exact all .initialGuess

namespace Library

structure Light (lib : Library) : Prop where
  classes : ∀ c, (lib.classOf c).light ok = true
  symbols : ∀ s, (lib.symbolOf s).light ok = true
  arguments : ∀ a, (lib.argumentOf a).value.light ok = true

namespace Light

variable {ok} {lib : Library}

theorem of_all (classes : lib.classes.toList.all (·.light ok) = true)
    (symbols : lib.symbols.toList.all (·.light ok) = true)
    (arguments : lib.arguments.toList.all (·.value.light ok) = true) : lib.Light ok :=
  ⟨fun _ => getD_of_all _ _ _ classes rfl, fun _ => getD_of_all _ _ _ symbols rfl,
    fun _ => getD_of_all _ _ _ arguments rfl⟩

variable (light : lib.Light ok)

include light

theorem pushClass (d : ClassDef) (new : d.light ok = true) : (lib.pushClass d).Light ok where
  __ := light
  classes c := getD_push_of lib.classes _ _ _ (motive := (·.light ok = true)) (light.classes c) new

theorem modifyClass (c : ClassId) (f : ClassDef → ClassDef)
    (new : (f (lib.classOf c)).light ok = true) : (lib.modifyClass c f).Light ok where
  __ := light
  classes d := classOf_modifyClass_of _ _ _ _ (motive := (·.light ok = true)) (light.classes d) fun same => same ▸ new

theorem pushModification (as : List ArgumentId) : (lib.pushModification as).Light ok :=
  ⟨light.classes, light.symbols, light.arguments⟩

theorem modifyModification (m : ModificationId) (f : List ArgumentId → List ArgumentId) :
    (lib.modifyModification m f).Light ok :=
  ⟨light.classes, light.symbols, light.arguments⟩

theorem pushSymbol (d : Symbol) (new : d.light ok = true) : (lib.pushSymbol d).Light ok where
  __ := light
  symbols s := getD_push_of lib.symbols _ _ _ (motive := (·.light ok = true)) (light.symbols s) new

theorem modifySymbol (s : SymbolId) (f : Symbol → Symbol)
    (new : (f (lib.symbolOf s)).light ok = true) : (lib.modifySymbol s f).Light ok where
  __ := light
  symbols t := symbolOf_modifySymbol_of _ _ _ _ (motive := (·.light ok = true)) (light.symbols t) fun same => same ▸ new

theorem pushArgument (d : Argument) (new : d.value.light ok = true) : (lib.pushArgument d).Light ok where
  __ := light
  arguments a := getD_push_of lib.arguments _ _ _ (motive := (·.value.light ok = true)) (light.arguments a) new

theorem modifyArgument (a : ArgumentId) (f : Argument → Argument)
    (new : (f (lib.argumentOf a)).value.light ok = true) : (lib.modifyArgument a f).Light ok where
  __ := light
  arguments b := getD_modify_of lib.arguments _ _ _ _ (motive := (·.value.light ok = true)) (light.arguments b)
    fun same _ => by cases a; cases same; exact new

end Light

end Library

namespace Copy

open Build Library

structure Aside (memo : Memo) (now : Library) (after : Memo) (next : Library) : Prop where
  light : next.Light ok
  classes : next.classes = now.classes
  symbols : next.symbols = now.symbols
  notedClasses : after.classes = memo.classes
  notedSymbols : after.symbols = memo.symbols

def aside : Judgement (StateT Memo (EStateM Error Library)) where
  gives x post := ∀ memo now, now.Light ok →
    Ensures (x.run memo) now (fun r next => Aside ok memo now r.2 next ∧ post r.1) fun _ _ => True
  pure holds := fun memo now light => by
    rw [StateT.run_pure, ensures_pure]
    exact ⟨⟨light, rfl, rfl, rfl, rfl⟩, holds⟩
  bind first second := fun memo now light => by
    rw [StateT.run_bind, ensures_bind]
    refine (first memo now light).imp fun r mid ⟨one, holds⟩ => ?_
    refine (second r.1 holds r.2 mid one.light).imp fun _ next ⟨two, holds⟩ => ⟨?_, holds⟩
    exact ⟨two.light, two.classes.trans one.classes, two.symbols.trans one.symbols,
      two.notedClasses.trans one.notedClasses, two.notedSymbols.trans one.notedSymbols⟩

section Aside

variable {ok} {α β : Type} {post : β → Prop}

theorem aside_throw (e : Error) : (aside ok).gives (throw e : Copying β) post := by
  intro memo now light
  rw [ensures_run_throw]
  trivial

theorem aside_get {f : Memo → Copying β} (then_ : ∀ memo, (aside ok).gives (f memo) post) :
    (aside ok).gives (get >>= f) post := by
  intro memo now light
  rw [ensures_run_get]
  exact then_ memo memo now light

theorem aside_lift (x : Build β) (each : ∀ now, now.Light ok → x.Ensures now (fun a next => next.Light ok ∧
      next.classes = now.classes ∧ next.symbols = now.symbols ∧ post a) anyhow) :
    (aside ok).gives (lift x) post := by
  intro memo now light
  rw [Copy.lift, StateT.run_lift, ensures_bind]
  refine (each now light).imp ?_
  rintro a next ⟨light, classes, symbols, holds⟩
  exact .pure ⟨⟨light, classes, symbols, rfl, rfl⟩, holds⟩

theorem aside_note (f : Memo → Memo) (classes : ∀ memo, (f memo).classes = memo.classes)
    (symbols : ∀ memo, (f memo).symbols = memo.symbols) : (aside ok).gives (modify f : Copying Unit) fun _ => True := by
  intro memo now light
  rw [StateT.run_modify, ensures_pure]
  exact ⟨⟨light, rfl, rfl, classes memo, symbols memo⟩, trivial⟩

theorem Aside.refl {now : Library} (memo : Memo) (light : now.Light ok) :
    Aside ok memo now memo now := ⟨light, rfl, rfl, rfl, rfl⟩

theorem Aside.bind {start memo : Memo} {lib now : Library} {x : Copying α} {f : α → Copying β}
    {mid : α → Prop} {good : β × Memo → Library → Prop} (before : Aside ok start lib memo now)
    (first : (aside ok).gives x mid)
    (second : ∀ a after next, Aside ok start lib after next → mid a →
      Ensures ((f a).run after) next good anyhow) :
    Ensures ((x >>= f).run memo) now good anyhow := by
  rw [StateT.run_bind, ensures_bind]
  refine (first memo now before.light).imp fun r next ⟨two, holds⟩ => ?_
  exact second r.1 r.2 next ⟨two.light, two.classes.trans before.classes,
    two.symbols.trans before.symbols, two.notedClasses.trans before.notedClasses,
    two.notedSymbols.trans before.notedSymbols⟩ holds

end Aside

structure Staying (fuel : Nat) : Prop where
  modifications : ∀ m, (aside ok).gives (copyModification fuel m) fun _ => True
  arguments : ∀ a, (aside ok).gives (copyArgument fuel a) fun _ => True
  values : ∀ v : ArgumentValue, v.light ok = true →
    (aside ok).gives (copyArgumentValue fuel v) fun w => w.light ok = true

namespace Staying

variable {ok} {fuel : Nat} (staying : Staying ok fuel)

include staying

theorem expr (e : Expr) (light : e.light ok = true) :
    (aside ok).gives (e.rename (inside fuel)) fun e' => e'.light ok = true :=
  e.rename_light (aside ok) (inside fuel) staying.modifications (fun _ => rfl) light

theorem rows (rows : List (List Expr)) (light : ∀ e ∈ rows.flatten, e.light ok = true) :
    (aside ok).gives ((inside fuel).mapping.rows rows) fun rows' => ∀ e ∈ rows'.flatten, e.light ok = true := by
  refine (aside ok).mono ((inside fuel).mapping.rows_gives (aside ok)
    (R := fun _ e' => e'.light ok = true) staying.expr rows light) fun rows' related e member => ?_
  obtain ⟨row, listed, inRow⟩ := List.mem_flatten.1 member
  have each := forall_of_forall₂ (t := fun row => ∀ e ∈ row, e.light ok = true)
    (fun _ _ => forall_of_forall₂ (t := fun e : Expr => e.light ok = true) fun _ _ => id) related
  exact each row listed e inRow

theorem copyModification (m : ModificationId) : (aside ok).gives (copyModification (fuel + 1) m) fun _ => True := by
  unfold Copy.copyModification
  refine aside_get fun memo => ?_
  split
  · exact (aside ok).pure trivial
  refine (aside ok).bind (aside_lift _ fun _ light => (ensures_addModification []).2
    ⟨light.pushModification [], rfl, rfl, trivial⟩) fun n (_ : True) => ?_
  refine (aside ok).bind (aside_note _ (fun _ => rfl) fun _ => rfl) fun _ _ => ?_
  refine (aside ok).bind (aside_lift _ fun _ light =>
    (ensures_modificationOf m).2 ⟨light, rfl, rfl, trivial⟩) fun d (_ : True) => ?_
  refine (aside ok).bind (copyList_goes (aside ok) _ staying.arguments d.arguments) fun as _ => ?_
  refine (aside ok).bind (aside_lift _ fun _ light => (ensures_updateModification n _).2
    ⟨light.modifyModification n _, rfl, rfl, trivial⟩) fun _ (_ : True) => ?_
  exact (aside ok).pure trivial

theorem copyArgument (a : ArgumentId) : (aside ok).gives (copyArgument (fuel + 1) a) fun _ => True := by
  unfold Copy.copyArgument
  refine aside_get fun memo => ?_
  split
  · exact (aside ok).pure trivial
  refine (aside ok).bind (aside_lift _ fun _ light =>
    (ensures_argumentOf a).2 ⟨light, rfl, rfl, trivial⟩) fun d (_ : True) => ?_
  refine (aside ok).bind (aside_lift _ fun _ light => (ensures_argumentOf d.origin).2
    ⟨light, rfl, rfl, light.arguments d.origin⟩) fun o (value : o.value.light ok = true) => ?_
  refine aside_get fun memo => ?_
  extract_lets rest
  have finish : ∀ b, (aside ok).gives (rest b) fun _ => True := by
    intro b
    refine (aside ok).bind (aside_lift _ fun _ light => (ensures_updateArgument b _).2
      ⟨light.modifyArgument b _ (light.arguments b), rfl, rfl, trivial⟩) fun _ (_ : True) => ?_
    exact (aside ok).bind (aside_note _ (fun _ => rfl) fun _ => rfl) fun _ _ => (aside ok).pure trivial
  split
  · exact (aside ok).pureBind (finish _)
  refine (aside ok).bind (aside_lift _ fun _ light => (ensures_addArgument _ _ _).2
    ⟨light.pushArgument _ value, rfl, rfl, trivial⟩) fun b (_ : True) => ?_
  refine (aside ok).bind (aside_note _ (fun _ => rfl) fun _ => rfl) fun _ _ => ?_
  refine (aside ok).bind (staying.values o.value value) fun v new => ?_
  refine (aside ok).bind (aside_lift _ fun _ light => (ensures_updateArgument b _).2
    ⟨light.modifyArgument b _ new, rfl, rfl, trivial⟩) fun _ (_ : True) => ?_
  exact (aside ok).pureBind (finish b)

theorem copyArgumentValue (v : ArgumentValue) (light : v.light ok = true) :
    (aside ok).gives (copyArgumentValue (fuel + 1) v) fun w => w.light ok = true := by
  unfold Copy.copyArgumentValue
  extract_lets ids
  split
  · next r changes =>
    rw [ArgumentValue.light_element] at light
    rw [r.rename_of_light ids (fun _ => rfl) light.1]
    refine (aside ok).pureBind ((aside ok).bind (Expr.renameAll_light (aside ok) ids
      staying.modifications (fun _ => rfl) changes light.2) fun es others => ?_)
    exact (aside ok).pure ((ArgumentValue.light_element ok _ _).2 ⟨light.1, others⟩)
  · next c =>
    obtain ⟨type, dimensions, none⟩ := (ArgumentValue.light_clause ok c).1 light
    rw [c.type.rename_of_light ids (fun _ => rfl) type]
    refine (aside ok).pureBind ((aside ok).bind (staying.rows _ dimensions) fun rows new => ?_)
    rw [none, copyList]
    exact (aside ok).pureBind ((aside ok).pure ((ArgumentValue.light_clause ok _).2 ⟨type, new, rfl⟩))
  · next s =>
    rw [ArgumentValue.light_shortClass] at light
    rw [s.component.rename_of_light ids (fun _ => rfl) light]
    refine (aside ok).pureBind ((aside ok).pure ?_)
    rw [ArgumentValue.light_shortClass]
    exact light

end Staying

theorem staying (fuel : Nat) : Staying ok fuel := by
  induction fuel with
  | zero =>
    constructor <;> intros <;> simp only [copyModification, copyArgument, copyArgumentValue] <;> exact aside_throw _
  | succ fuel ih => exact ⟨ih.copyModification, ih.copyArgument, ih.copyArgumentValue⟩

end Copy

end Modelica
