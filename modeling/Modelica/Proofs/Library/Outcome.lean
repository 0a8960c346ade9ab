import Mathlib.Order.Nat
import Modelica.Library.Instance

set_option autoImplicit false

namespace Modelica

@[simp] abbrev never {α : Type} (_ : α) : Prop := False

section

variable (lib : Library)

@[simp] abbrev ClassId.In (c : ClassId) : Prop := c.index < lib.classes.size

@[simp] abbrev SymbolId.In (s : SymbolId) : Prop := s.index < lib.symbols.size

@[simp] abbrev ModificationId.In (m : ModificationId) : Prop := m.index < lib.modifications.size

@[simp] abbrev ArgumentId.In (a : ArgumentId) : Prop := a.index < lib.arguments.size

@[simp] abbrev ClassId.New (c : ClassId) : Prop := lib.classes.size ≤ c.index

@[simp] abbrev SymbolId.New (s : SymbolId) : Prop := lib.symbols.size ≤ s.index

end

namespace Library

def modifyClass (lib : Library) (id : ClassId) (f : ClassDef → ClassDef) : Library :=
  { lib with classes := lib.classes.modify id.index f }

def modifySymbol (lib : Library) (id : SymbolId) (f : Symbol → Symbol) : Library :=
  { lib with symbols := lib.symbols.modify id.index f }

def modifyModification (lib : Library) (id : ModificationId)
    (f : List ArgumentId → List ArgumentId) : Library :=
  { lib with modifications := lib.modifications.modify id.index fun m => ⟨f m.arguments⟩ }

def modifyArgument (lib : Library) (id : ArgumentId) (f : Argument → Argument) : Library :=
  { lib with arguments := lib.arguments.modify id.index f }

def pushClass (lib : Library) (d : ClassDef) : Library :=
  { lib with classes := lib.classes.push d }

def pushSymbol (lib : Library) (d : Symbol) : Library :=
  { lib with symbols := lib.symbols.push d }

def pushModification (lib : Library) (arguments : List ArgumentId) : Library :=
  { lib with modifications := lib.modifications.push ⟨arguments⟩ }

def pushArgument (lib : Library) (a : Argument) : Library :=
  { lib with arguments := lib.arguments.push a }

def nextClass (lib : Library) : ClassId := ⟨lib.classes.size⟩

def nextSymbol (lib : Library) : SymbolId := ⟨lib.symbols.size⟩

def nextModification (lib : Library) : ModificationId := ⟨lib.modifications.size⟩

def nextArgument (lib : Library) : ArgumentId := ⟨lib.arguments.size⟩

end Library

namespace Build

variable {α β : Type}

def Ensures (x : Build α) (lib : Library) (good : α → Library → Prop)
    (bad : Error → Library → Prop) : Prop :=
  match x lib with
  | .ok a next => good a next
  | .error e next => bad e next

def Returns (x : Build α) (lib : Library) (good : α → Library → Prop) : Prop :=
  x.Ensures lib good fun _ _ => False

abbrev anyhow {β γ : Type} (_ : β) (_ : γ) : Prop := True

variable {lib : Library} {good : α → Library → Prop} {bad : Error → Library → Prop}

variable {x : Build α} {a : α} {next : Library} {good' : α → Library → Prop}
  {bad' : Error → Library → Prop} {γ : Type}

theorem Returns.exists (returns : x.Returns lib good) : ∃ a next, x lib = .ok a next ∧ good a next := by
  unfold Returns Ensures at returns
  cases run : x lib with
  | ok a next =>
    rw [run] at returns
    exact ⟨a, next, rfl, returns⟩
  | error e next =>
    rw [run] at returns
    contradiction

theorem ensures_of_eq (run : x lib = .ok a next) : x.Ensures lib good bad ↔ good a next := by
  unfold Ensures
  rw [run]

theorem Returns.eq (returns : x.Returns lib fun b after => b = a ∧ after = next) : x lib = .ok a next := by
  obtain ⟨b, after, run, rfl, rfl⟩ := returns.exists
  exact run

section

variable (ensures : x.Ensures lib good bad) (better : ∀ a next, good a next → good' a next)
include ensures better

theorem Ensures.mono (worse : ∀ e next, bad e next → bad' e next) : x.Ensures lib good' bad' := by
  unfold Ensures at *
  split
  · next run => rw [run] at ensures; exact better _ _ ensures
  · next run => rw [run] at ensures; exact worse _ _ ensures

theorem Ensures.imp : x.Ensures lib good' bad :=
  ensures.mono better fun _ _ => id

end

theorem Ensures.and (first : x.Ensures lib good bad) (second : x.Ensures lib good' bad') :
    x.Ensures lib (fun a next => good a next ∧ good' a next) fun e next => bad e next ∧ bad' e next := by
  unfold Ensures at *
  split
  all_goals next run => rw [run] at first second; exact ⟨first, second⟩

theorem Ensures.of_forall (all : ∀ a next, good a next) : x.Ensures lib good anyhow := by
  unfold Ensures
  split
  · exact all _ _
  · trivial

theorem Ensures.ran (ensures : x.Ensures lib good bad) :
    x.Ensures lib (fun a next => good a next ∧ x lib = .ok a next) bad := by
  unfold Ensures at ensures ⊢
  split
  · next a next run =>
    rw [run] at ensures
    exact ⟨ensures, run⟩
  · next e next run =>
    rw [run] at ensures
    exact ensures

theorem bind_of_run {x : Build β} {f : β → Build α} {b : β} (ran : x lib = .ok b next) : (x >>= f) lib = f b next := by
  show EStateM.bind x f lib = f b next
  rw [EStateM.bind, ran]

theorem forM_snoc {step : γ → Build PUnit} {done : List γ} {x : γ} {lib now next : Library}
    (before : forM done step lib = .ok ⟨⟩ now) (ran : step x now = .ok ⟨⟩ next) :
    forM (done ++ [x]) step lib = .ok ⟨⟩ next := by
  rw [List.forM_append, bind_of_run before]
  exact (bind_of_run ran).trans rfl

theorem Returns.mono (returns : x.Returns lib good)
    (better : ∀ a next, good a next → good' a next) : x.Returns lib good' :=
  Ensures.mono returns better fun _ _ => id

@[simp] theorem ensures_pure (a : α) : (pure a : Build α).Ensures lib good bad ↔ good a lib := Iff.rfl

@[simp] theorem ensures_throw (e : Error) : (throw e : Build α).Ensures lib good bad ↔ bad e lib := Iff.rfl

theorem Ensures.pure (holds : good a lib) : (pure a : Build α).Ensures lib good bad := holds

theorem Ensures.throw {e : Error} : (throw e : Build α).Ensures lib good anyhow := trivial

@[simp] theorem ensures_bind (x : Build β) (f : β → Build α) : (x >>= f).Ensures lib good bad ↔
      x.Ensures lib (fun b next => (f b).Ensures next good bad) bad := by
  unfold Ensures
  show (match EStateM.bind x f lib with | .ok a next => _ | .error e next => _) ↔ _
  unfold EStateM.bind
  cases x lib <;> rfl

theorem Ensures.bind {x : Build β} {f : β → Build α} {mid : β → Library → Prop}
    (first : x.Ensures lib mid bad) (second : ∀ b next, mid b next → (f b).Ensures next good bad) :
    (x >>= f).Ensures lib good bad :=
  (ensures_bind x f).2 (first.mono second fun _ _ => id)

@[simp] theorem ensures_map (x : Build β) (f : β → α) :
    (f <$> x).Ensures lib good bad ↔ x.Ensures lib (fun b next => good (f b) next) bad := by
  unfold Ensures
  show (match EStateM.map f x lib with | .ok a next => _ | .error e next => _) ↔ _
  unfold EStateM.map
  cases x lib <;> rfl

@[simp] theorem ensures_tryCatch (x : Build α) (h : Error → Build α) : (tryCatch x h).Ensures lib good bad ↔
      x.Ensures lib good fun e next => (h e).Ensures next good bad := by
  unfold Ensures
  show (match EStateM.tryCatch x h lib with | .ok a next => _ | .error e next => _) ↔ _
  unfold EStateM.tryCatch
  cases x lib <;> rfl

@[simp] theorem ensures_liftM (x : Build α) :
    (liftM x : Build α).Ensures lib good bad ↔ x.Ensures lib good bad := Iff.rfl

@[simp] theorem ensures_get {good : Library → Library → Prop} :
    (get : Build Library).Ensures lib good bad ↔ good lib lib := Iff.rfl

@[simp] theorem ensures_classOf (id : ClassId) {good : ClassDef → Library → Prop} :
    (classOf id).Ensures lib good bad ↔ good (lib.classOf id) lib := Iff.rfl

@[simp] theorem ensures_symbolOf (id : SymbolId) {good : Symbol → Library → Prop} :
    (symbolOf id).Ensures lib good bad ↔ good (lib.symbolOf id) lib := Iff.rfl

@[simp] theorem ensures_modificationOf (id : ModificationId) {good : Modification → Library → Prop} :
    (modificationOf id).Ensures lib good bad ↔ good (lib.modificationOf id) lib := Iff.rfl

@[simp] theorem ensures_argumentOf (id : ArgumentId) {good : Argument → Library → Prop} :
    (argumentOf id).Ensures lib good bad ↔ good (lib.argumentOf id) lib := Iff.rfl

@[simp] theorem ensures_liftExcept_ok (a : α) : (liftExcept (.ok a)).Ensures lib good bad ↔ good a lib := Iff.rfl

@[simp] theorem ensures_updateClass (id : ClassId) (f : ClassDef → ClassDef) {good : Unit → Library → Prop} :
    (updateClass id f).Ensures lib good bad ↔ good () (lib.modifyClass id f) := Iff.rfl

@[simp] theorem ensures_updateSymbol (id : SymbolId) (f : Symbol → Symbol) {good : Unit → Library → Prop} :
    (updateSymbol id f).Ensures lib good bad ↔ good () (lib.modifySymbol id f) := Iff.rfl

@[simp] theorem ensures_updateModification (id : ModificationId)
    (f : List ArgumentId → List ArgumentId) {good : Unit → Library → Prop} :
    (updateModification id f).Ensures lib good bad ↔ good () (lib.modifyModification id f) :=
  Iff.rfl

@[simp] theorem ensures_updateArgument (id : ArgumentId) (f : Argument → Argument) {good : Unit → Library → Prop} :
    (updateArgument id f).Ensures lib good bad ↔ good () (lib.modifyArgument id f) := Iff.rfl

@[simp] theorem ensures_addClass (make : ClassId → ClassDef) {good : ClassId → Library → Prop} :
    (addClass make).Ensures lib good bad ↔ good lib.nextClass (lib.pushClass (make lib.nextClass)) := Iff.rfl

@[simp] theorem ensures_addSymbol (s : Symbol) {good : SymbolId → Library → Prop} :
    (addSymbol s).Ensures lib good bad ↔ good lib.nextSymbol (lib.pushSymbol s) := Iff.rfl

@[simp] theorem ensures_addModification (arguments : List ArgumentId) {good : ModificationId → Library → Prop} :
    (addModification arguments).Ensures lib good bad ↔
      good lib.nextModification (lib.pushModification arguments) := Iff.rfl

@[simp] theorem ensures_addArgument (value : ArgumentValue) (scope : Option ClassId)
    (redeclare : Bool) {good : ArgumentId → Library → Prop} :
    (addArgument value scope redeclare).Ensures lib good bad ↔
      good lib.nextArgument (lib.pushArgument ⟨value, scope, redeclare, lib.nextArgument⟩) :=
  Iff.rfl

@[simp] theorem ensures_argumentsOf (m : ModificationId) {good : List ArgumentId → Library → Prop} :
    (argumentsOf m).Ensures lib good bad ↔ good (lib.modificationOf m).arguments lib := by
  simp only [argumentsOf, ensures_bind, ensures_modificationOf, ensures_pure]

theorem bind_get (f : Library → Build α) :
    (get >>= f).Ensures lib good bad ↔ (f lib).Ensures lib good bad := ensures_bind get f

theorem bind_classOf (id : ClassId) (f : ClassDef → Build α) :
    (classOf id >>= f).Ensures lib good bad ↔ (f (lib.classOf id)).Ensures lib good bad :=
  ensures_bind (classOf id) f

theorem bind_symbolOf (id : SymbolId) (f : Symbol → Build α) :
    (symbolOf id >>= f).Ensures lib good bad ↔ (f (lib.symbolOf id)).Ensures lib good bad :=
  ensures_bind (symbolOf id) f

theorem bind_argumentOf (id : ArgumentId) (f : Argument → Build α) :
    (argumentOf id >>= f).Ensures lib good bad ↔ (f (lib.argumentOf id)).Ensures lib good bad :=
  ensures_bind (argumentOf id) f

theorem bind_updateClass (id : ClassId) (g : ClassDef → ClassDef) (f : Unit → Build α) :
    (updateClass id g >>= f).Ensures lib good bad ↔ (f ()).Ensures (lib.modifyClass id g) good bad :=
  ensures_bind (updateClass id g) f

theorem ensures_forIn (xs : List γ) (init : β) (f : γ → β → Build (ForInStep β))
    {good : β → Library → Prop} (invariant : List γ → β → Library → Prop)
    (start : invariant [] init lib)
    (step : ∀ done x rest b now, xs = done ++ x :: rest → invariant done b now → (f x b).Ensures now (fun s next =>
        match s with
        | .yield b => invariant (done ++ [x]) b next
        | .done b => good b next) bad) (finish : ∀ b now, invariant xs b now → good b now) :
    (forIn xs init f).Ensures lib good bad := by
  have go : ∀ done rest b now, xs = done ++ rest → invariant done b now → (forIn rest b f).Ensures now good bad := by
    intro done rest
    induction rest generalizing done with
    | nil =>
      intro b now all holds
      rw [List.append_nil] at all
      subst all
      exact finish b now holds
    | cons x rest ih =>
      intro b now all holds
      rw [List.forIn_cons, ensures_bind]
      refine (step done x rest b now all holds).imp ?_
      intro s next after
      cases s with
      | done b => exact after
      | yield b => exact ih (done ++ [x]) b next (by simp [all]) after
  exact go [] xs init lib rfl start

theorem ensures_forEach (xs : List γ) (body : γ → Build Unit) (invariant : Library → Prop)
    (start : invariant lib) (each : ∀ x ∈ xs, ∀ now, invariant now →
      (body x).Ensures now (fun _ next => invariant next) bad) :
    (forIn xs PUnit.unit fun x _ => do
      body x
      pure (ForInStep.yield PUnit.unit)).Ensures lib (fun _ next => invariant next) bad := by
  refine ensures_forIn xs _ _ (fun _ _ now => invariant now) start ?_ fun _ _ => id
  rintro done x rest ⟨⟩ now all holds
  have member : x ∈ xs := by simp [all]
  exact (each x member now holds).bind fun _ _ holds => .pure holds

def Respects (R : Library → Library → Prop) (x : Build α) : Prop :=
  ∀ lib, x.Ensures lib (fun _ next => R lib next) fun _ _ => True

theorem respects_throw {R : Library → Library → Prop} (e : Error) : Respects R (throw e : Build α) :=
  fun _ => (ensures_throw e).2 trivial

structure Passing (R : Library → Library → Prop) : Prop where
  refl : ∀ lib, R lib lib
  trans : ∀ {lib now next}, R lib now → R now next → R lib next

namespace Passing

variable {R : Library → Library → Prop} (frame : Passing R)

include frame

theorem returned (a : α) : Respects R (pure a) := fun lib => (ensures_pure a).2 (frame.refl lib)

theorem seen : Respects R get := fun lib => ensures_get.2 (frame.refl lib)

theorem classOf (c : ClassId) : Respects R (Build.classOf c) := fun lib => (ensures_classOf c).2 (frame.refl lib)

theorem symbolOf (s : SymbolId) : Respects R (Build.symbolOf s) := fun lib => (ensures_symbolOf s).2 (frame.refl lib)

theorem argumentOf (a : ArgumentId) : Respects R (Build.argumentOf a) := fun lib =>
  (ensures_argumentOf a).2 (frame.refl lib)

theorem andThen {x : Build β} {f : β → Build α} (first : Respects R x)
    (second : ∀ b, Respects R (f b)) : Respects R (x >>= f) := fun lib =>
  (ensures_bind x f).2 ((first lib).mono (fun b next onward => (second b next).mono
    (fun _ _ further => frame.trans onward further) fun _ _ => id) fun _ _ => id)

theorem loop {γ : Type} (xs : List γ) (init : β) (f : γ → β → Build (ForInStep β))
    (each : ∀ x b, Respects R (f x b)) : Respects R (forIn xs init f) := by
  intro lib
  refine ensures_forIn xs init f (fun _ _ now => R lib now) (frame.refl lib) ?_ fun _ _ => id
  intro done x rest b now _ onward
  refine (each x b now).mono (fun s next further => ?_) fun _ _ => id
  cases s <;> exact frame.trans onward further

theorem modificationOf (m : ModificationId) : Respects R (Build.modificationOf m) := fun lib =>
  (ensures_modificationOf m).2 (frame.refl lib)

theorem argumentsOf (m : ModificationId) : Respects R (Build.argumentsOf m) :=
  frame.andThen (frame.modificationOf m) fun _ => frame.returned _

theorem environmentOf (c : ClassId) : Respects R (Build.environmentOf c) := by
  refine frame.andThen (frame.classOf c) fun d => ?_
  split
  · exact frame.returned _
  · exact respects_throw _

theorem pathText (c : ClassId) : Respects R (Build.pathText c) := by
  refine frame.andThen frame.seen fun lib => ?_
  cases Library.pathText (lib.path c) with
  | ok text => exact frame.returned text
  | error e => exact respects_throw e

theorem elementOf (a : ArgumentId) : Respects R (Build.elementOf a) := by
  refine frame.andThen (frame.argumentOf a) fun d => ?_
  split
  · exact frame.returned _
  · exact respects_throw _

theorem plainModifier (a : ArgumentId) : Respects R (Build.plainModifier a) := by
  refine frame.andThen (frame.elementOf a) fun element => ?_
  split
  · exact frame.returned _
  · exact respects_throw _

theorem targetName (a : ArgumentId) : Respects R (Build.targetName a) := by
  refine frame.andThen (frame.argumentOf a) fun d => ?_
  split
  · exact frame.returned _
  · exact frame.returned _
  · exact respects_throw _

theorem classEntry (c : ClassId) (name : String) : Respects R (Build.classEntry c name) := by
  refine frame.andThen (frame.classOf c) fun d => ?_
  split
  · exact frame.returned _
  · exact respects_throw _

theorem checkTarget (k : ClassId) (a : ArgumentId) : Respects R (Build.checkTarget k a) := by
  refine frame.andThen (frame.targetName a) fun target => frame.andThen (frame.classOf k) fun d => ?_
  split
  · exact frame.returned _
  · exact frame.andThen (frame.pathText k) fun _ => respects_throw _

end Passing

theorem passing_eq : Passing fun lib next => next = lib := ⟨fun _ => rfl, fun first second => second.trans first⟩

def passes (x : Build α) (lib : Library) (test : α → Library → Bool) : Bool :=
  match x lib with
  | .ok a next => test a next
  | .error _ _ => false

theorem exists_of_passes (x : Build α) (lib : Library) (test : α → Library → Bool)
    (passed : x.passes lib test = true) : ∃ a next, x lib = .ok a next ∧ test a next = true := by
  unfold passes at passed
  split at passed
  · next a next run => exact ⟨a, next, run, passed⟩
  · contradiction

-- otherwise comparing two statements may run the computations in them
attribute [irreducible] Ensures

end Build

end Modelica
