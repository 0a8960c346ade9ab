import Modelica.Proofs.Library.Whereabouts

set_option autoImplicit false

namespace Modelica

theorem ComponentRef.text_mk_none (name : String) (groups : List (Option (List Expr))) :
    (ComponentRef.mk name groups none).text = name := by
  simp [ComponentRef.text, ComponentRef.names, Text.join]

theorem ComponentRef.text_qualify (s : Surroundings) (r : ComponentRef) : (r.qualify s).text =
      if s.known (s.before ++ r.text) then s.before ++ r.text else r.text := by
  obtain ⟨name, groups, child⟩ := r
  rw [ComponentRef.qualify]
  split
  · exact ComponentRef.text_mk_none _ _
  · rfl

def Surroundings.ofInstance (instanceName : String) (known : String → Bool) : Surroundings :=
  ⟨if instanceName = "" then "" else instanceName ++ ".", known⟩

section Places

variable (name : String)

mutual

-- Which of the references in an expression are a certain name alone, in reading order.
def Expr.places : Expr → List Bool
  | .literal _ => []
  | .ref r => r.places
  | .apply o es => o.places ++ Expr.allPlaces es
  | .conditional cs es => Expr.allPlaces cs ++ Expr.allPlaces es
  | .array es => Expr.allPlaces es
  | .slice a b c => a.places ++ b.places ++ c.places
  | .tuple es => Expr.allPlaces es
  | .component _ => []
  | .modification _ => []

def Expr.allPlaces : List Expr → List Bool
  | [] => []
  | e :: es => e.places ++ Expr.allPlaces es

def ComponentRef.places : ComponentRef → List Bool
  | .mk first groups child =>
    (first == name && child.isNone) :: (Expr.groupPlaces groups ++ ComponentRef.restPlaces child)

def ComponentRef.restPlaces : Option ComponentRef → List Bool
  | none => []
  | some (.mk _ groups child) => Expr.groupPlaces groups ++ ComponentRef.restPlaces child

def Expr.groupPlaces : List (Option (List Expr)) → List Bool
  | [] => []
  | none :: rest => Expr.groupPlaces rest
  | some es :: rest => Expr.allPlaces es ++ Expr.groupPlaces rest

def Operator.places : Operator → List Bool
  | .named _ => []
  | .function r => r.places

end

theorem Expr.groupPlaces_append (gs hs : List (Option (List Expr))) :
    Expr.groupPlaces name (gs ++ hs) = Expr.groupPlaces name gs ++ Expr.groupPlaces name hs := by
  induction gs with
  | nil => rfl
  | cons g gs ih =>
    cases g with
    | none => exact ih
    | some es =>
      rw [List.cons_append, Expr.groupPlaces, Expr.groupPlaces, ih, List.append_assoc]

end Places

-- A name without points that is no component of the instance.
structure Surroundings.Free (s : Surroundings) (name : String) : Prop where
  plain : '.' ∉ name.toList
  unknown : s.known (s.before ++ name) = false

section Free

variable {instanceName name : String} {known : String → Bool}

theorem Surroundings.Free.ne (free : (Surroundings.ofInstance instanceName known).Free name) (text : String)
    (found : known ((Surroundings.ofInstance instanceName known).before ++ text) = true) :
    (Surroundings.ofInstance instanceName known).before ++ text ≠ name ∧ text ≠ name := by
  refine ⟨?_, ?_⟩
  · rintro rfl
    by_cases top : instanceName = ""
    · have same : known (Surroundings.before _ ++ (Surroundings.before _ ++ text)) = false := free.unknown
      simp_all [Surroundings.ofInstance]
    · exact free.plain (by simp [Surroundings.ofInstance, top])
  · rintro rfl
    have none : known (Surroundings.before _ ++ text) = false := free.unknown
    simp [none] at found

mutual

theorem Expr.places_qualify (free : (Surroundings.ofInstance instanceName known).Free name) (e : Expr) :
    (e.qualify (.ofInstance instanceName known)).places name = e.places name := by
  match e with
  | .literal _ | .component _ | .modification _ => rfl
  | .ref r => exact ComponentRef.places_qualify free r
  | .apply o es =>
    rw [Expr.qualify, Expr.places, Expr.places, Operator.places_qualify free o, Expr.allPlaces_qualifyAll free es]
  | .conditional cs es =>
    rw [Expr.qualify, Expr.places, Expr.places, Expr.allPlaces_qualifyAll free cs, Expr.allPlaces_qualifyAll free es]
  | .array es | .tuple es => exact Expr.allPlaces_qualifyAll free es
  | .slice a b c =>
    rw [Expr.qualify, Expr.places, Expr.places, Expr.places_qualify free a, Expr.places_qualify free b, Expr.places_qualify free c]

theorem Expr.allPlaces_qualifyAll (free : (Surroundings.ofInstance instanceName known).Free name) (es : List Expr) :
    Expr.allPlaces name (Expr.qualifyAll (.ofInstance instanceName known) es) = Expr.allPlaces name es := by
  match es with
  | [] => rfl
  | e :: es =>
    rw [Expr.qualifyAll, Expr.allPlaces, Expr.allPlaces, Expr.places_qualify free e, Expr.allPlaces_qualifyAll free es]

theorem ComponentRef.places_qualify (free : (Surroundings.ofInstance instanceName known).Free name) (r : ComponentRef) :
    (r.qualify (.ofInstance instanceName known)).places name = r.places name := by
  match r with
  | .mk first groups child =>
    rw [ComponentRef.qualify]
    split
    · next found =>
      -- neither the reference nor what it becomes is the name alone
      obtain ⟨after, before⟩ := free.ne _ found
      have other : (first == name && child.isNone) = false := by
        cases child with
        | none => simpa [ComponentRef.text_mk_none] using before
        | some _ => simp
      rw [ComponentRef.places, ComponentRef.places, other, Expr.groupPlaces_append,
        Expr.groupPlaces_qualifyGroups free groups, ComponentRef.groupPlaces_qualifyRest free child]
      simp [ComponentRef.restPlaces, after]
    · rfl

theorem ComponentRef.groupPlaces_qualifyRest (free : (Surroundings.ofInstance instanceName known).Free name) (child : Option ComponentRef) :
    Expr.groupPlaces name (ComponentRef.qualifyRest (.ofInstance instanceName known) child) =
      ComponentRef.restPlaces name child := by
  match child with
  | none => rfl
  | some (.mk _ groups child) =>
    rw [ComponentRef.qualifyRest, Expr.groupPlaces_append, ComponentRef.restPlaces,
      Expr.groupPlaces_qualifyGroups free groups, ComponentRef.groupPlaces_qualifyRest free child]

theorem Expr.groupPlaces_qualifyGroups (free : (Surroundings.ofInstance instanceName known).Free name) (groups : List (Option (List Expr))) :
    Expr.groupPlaces name (Expr.qualifyGroups (.ofInstance instanceName known) groups) =
      Expr.groupPlaces name groups := by
  match groups with
  | [] => rfl
  | none :: rest => exact Expr.groupPlaces_qualifyGroups free rest
  | some es :: rest =>
    rw [Expr.qualifyGroups, Expr.groupPlaces, Expr.groupPlaces, Expr.allPlaces_qualifyAll free es,
      Expr.groupPlaces_qualifyGroups free rest]

theorem Operator.places_qualify (free : (Surroundings.ofInstance instanceName known).Free name) (o : Operator) :
    (o.qualify (.ofInstance instanceName known)).places name = o.places name := by
  match o with
  | .named _ => rfl
  | .function r => exact ComponentRef.places_qualify free r

end

end Free

-- An expression is qualified, whatever loops it stands in, and refers to a name that is no component of the
-- instance at the same places as before.
def Surroundings.Keeps (s : Surroundings) (x y : Expr) : Prop :=
  y = x.qualify s ∧ ∀ name, s.Free name → y.places name = x.places name

-- In the equations and statements of an instance, nested to any depth, every loop keeps the names of its
-- indices, and these are referred to at the same places as before unless they are components of the instance.
-- The name of a component is qualified even where it is that of an index.
theorem Build.qualifying_indices (instanceName : String) (known : String → Bool) :
    (∀ e lib, ∃ e', (qualifying (.ofInstance instanceName known)).equation e lib = .ok e' lib ∧
      e.Rel (Surroundings.ofInstance instanceName known).Keeps e') ∧
    (∀ st lib, ∃ st', (qualifying (.ofInstance instanceName known)).statement st lib = .ok st' lib ∧
      st.Rel (Surroundings.ofInstance instanceName known).Keeps st') ∧
    ∀ name, known ((Surroundings.ofInstance instanceName known).before ++ name) = true →
      ((ComponentRef.simple name).qualify (.ofInstance instanceName known)).text =
        (Surroundings.ofInstance instanceName known).before ++ name := by
  have expr : ∀ x : Expr, True → (Judgement.still (EStateM Error Library)).gives
      ((qualifying (.ofInstance instanceName known)).expr x) (Surroundings.Keeps _ x) :=
    fun x _ => ⟨_, rfl, rfl, fun name free => Expr.places_qualify free x⟩
  have ref : ∀ r : ComponentRef, True → (Judgement.still (EStateM Error Library)).gives
      ((qualifying (.ofInstance instanceName known)).ref r)
      fun r' => Surroundings.Keeps _ (.ref r) (.ref r') :=
    fun r _ => ⟨_, rfl, rfl, fun name free => ComponentRef.places_qualify free r⟩
  refine ⟨fun e lib => ?_, fun st lib => ?_, fun name found => ?_⟩
  · obtain ⟨e', run, related⟩ := (qualifying _).equation_gives _ expr ref e e.over_any
    exact ⟨e', by rw [run]; rfl, related⟩
  · obtain ⟨st', run, related⟩ := (qualifying _).statement_gives _ expr st st.over_any
    exact ⟨st', by rw [run]; rfl, related⟩
  · have same : (ComponentRef.simple name).text = name := ComponentRef.text_mk_none name [none]
    rw [ComponentRef.text_qualify, same]
    exact if_pos found

-- A component `i` of the instance `a` takes the place of the index of a loop.
theorem Build.index_captured :
    (qualifying (.ofInstance "a" (· == "a.i"))).equation
        (.forLoop [⟨"i", .ref (.simple "n")⟩] [.simple (.ref (.simple "x")) (.ref (.simple "i")) ""] "") {} =
      .ok (.forLoop [⟨"i", .ref (.simple "n")⟩] [.simple (.ref (.simple "x")) (.ref (.simple "a.i")) ""] "") {} := by
  rfl

end Modelica
