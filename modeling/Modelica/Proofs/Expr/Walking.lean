import Modelica.Expr.Qualify

set_option autoImplicit false

namespace Modelica

-- How many references the walk is in, the depth of the one that it leaves alone, how many arguments that know
-- where they were written it is in, and the expressions it has come by.
structure Walk where
  depth : Nat := 0
  cutoff : Option Nat := none
  inside : Nat := 0
  seen : List Expr := []

def ComponentRef.rest : Option ComponentRef → List (Option (List Expr))
  | none => []
  | some (.mk _ groups child) => groups ++ rest child

theorem ComponentRef.sizeOf_append_rest (groups : List (Option (List Expr))) (child : Option ComponentRef) :
    sizeOf (groups ++ rest child) < sizeOf groups + sizeOf child := by
  induction groups with
  | nil =>
    match child with
    | none => simp [rest]
    | some (.mk _ groups child) =>
      have below := sizeOf_append_rest groups child
      simp [rest] at below ⊢
      omega
  | cons g groups ih =>
    simp only [List.cons_append, List.cons.sizeOf_spec]
    omega

namespace Walk

def saw (w : Walk) (es : List Expr) : Walk :=
  { w with seen := w.seen ++ es }

def enter (s : Surroundings) (full : String) (w : Walk) : Bool × Walk :=
  let w := { w with depth := w.depth + 1 }
  if w.cutoff.any (· < w.depth) then (false, w)
  else if s.known full && w.inside == 0 then (true, w)
  else (false, { w with cutoff := some w.depth })

def leave (w : Walk) : Walk :=
  let w := { w with depth := w.depth - 1 }
  if w.cutoff.all (w.depth < ·) then { w with cutoff := none } else w

end Walk

mutual

def Expr.walk (s : Surroundings) (e : Expr) : StateM Walk Expr := do
  modify (·.saw [e])
  match e with
  | .ref r => return .ref (← r.walk s)
  | .apply o es => return .apply (← o.walk s) (← Expr.walkAll s es)
  | .conditional cs es => return .conditional (← Expr.walkAll s cs) (← Expr.walkAll s es)
  | .array es => return .array (← Expr.walkAll s es)
  | .slice a b c => return .slice (← a.walk s) (← b.walk s) (← c.walk s)
  | .tuple es => return .tuple (← Expr.walkAll s es)
  | e => return e
termination_by sizeOf e

def Expr.walkAll (s : Surroundings) : List Expr → StateM Walk (List Expr)
  | [] => return []
  | e :: es => return (← e.walk s) :: (← Expr.walkAll s es)
termination_by es => sizeOf es

-- A reference that is changed takes over the subscripts of all its parts, and the walk goes on in these.
def ComponentRef.walk (s : Surroundings) : ComponentRef → StateM Walk ComponentRef
  | .mk name groups child => fun w =>
    let full := s.before ++ (ComponentRef.mk name groups child).text
    let (changed, w) := w.enter s full
    let (r, w) := (do
      if changed then return .mk full (← Expr.walkGroups s (groups ++ ComponentRef.rest child)) none
      else return .mk name (← Expr.walkGroups s groups) (← ComponentRef.walkChild s child) : StateM Walk _) w
    (r, w.leave)
termination_by r => sizeOf r
decreasing_by
  all_goals
    have := ComponentRef.sizeOf_append_rest groups child
    simp only [ComponentRef.mk.sizeOf_spec]
    omega

def ComponentRef.walkChild (s : Surroundings) : Option ComponentRef → StateM Walk (Option ComponentRef)
  | none => return none
  | some c => return some (← c.walk s)
termination_by child => sizeOf child

def Expr.walkGroups (s : Surroundings) : List (Option (List Expr)) → StateM Walk (List (Option (List Expr)))
  | [] => return []
  | none :: rest => return none :: (← Expr.walkGroups s rest)
  | some es :: rest => return some (← Expr.walkAll s es) :: (← Expr.walkGroups s rest)
termination_by groups => sizeOf groups

def Operator.walk (s : Surroundings) : Operator → StateM Walk Operator
  | .named name => return .named name
  | .function r => return .function (← r.walk s)
termination_by o => sizeOf o

end

mutual

def Expr.within (e : Expr) : List Expr :=
  e :: match e with
  | .ref r => r.within
  | .apply o es => o.within ++ Expr.allWithin es
  | .conditional cs es => Expr.allWithin cs ++ Expr.allWithin es
  | .array es | .tuple es => Expr.allWithin es
  | .slice a b c => a.within ++ (b.within ++ c.within)
  | _ => []

def Expr.allWithin : List Expr → List Expr
  | [] => []
  | e :: es => e.within ++ Expr.allWithin es

def ComponentRef.within : ComponentRef → List Expr
  | .mk _ groups child => Expr.groupsWithin groups ++ ComponentRef.childWithin child

def ComponentRef.childWithin : Option ComponentRef → List Expr
  | none => []
  | some c => c.within

def Expr.groupsWithin : List (Option (List Expr)) → List Expr
  | [] => []
  | none :: rest => Expr.groupsWithin rest
  | some es :: rest => Expr.allWithin es ++ Expr.groupsWithin rest

def Operator.within : Operator → List Expr
  | .named _ => []
  | .function r => r.within

end

namespace Walk

-- Inside a reference that is left alone, or inside an argument that knows where it was written.
def still (w : Walk) : Bool := w.cutoff.isSome || w.inside != 0

def Sound (w : Walk) : Prop := ∀ c ∈ w.cutoff, c ≤ w.depth

-- What is inside the reference is walked from `now`, and then the counters are set back.
theorem enter_cases (s : Surroundings) (full : String) {w : Walk} (sound : w.Sound) :
    ∃ now : Walk, w.enter s full = (s.known full && !w.still, now) ∧ now.still = !(s.known full && !w.still) ∧
      now.Sound ∧ ∀ es, (now.saw es).leave = w.saw es := by
  obtain ⟨depth, _ | cutoff, inside, seen⟩ := w
  · have free : (s.known full && !still ⟨depth, none, inside, seen⟩) = (s.known full && inside == 0) := by
      simp [still, bne]
    have entered : enter s full ⟨depth, none, inside, seen⟩ = if s.known full && inside == 0 then
        (true, ⟨depth + 1, none, inside, seen⟩) else (false, ⟨depth + 1, some (depth + 1), inside, seen⟩) := by
      simp [enter]
    rw [entered, free]
    cases chosen : s.known full && inside == 0
    · exact ⟨_, rfl, by simp [still], by simp [Sound], by simp [leave, saw]⟩
    · have none : inside = 0 := by simp_all
      exact ⟨_, rfl, by simp [still, none], by simp [Sound], by simp [leave, saw]⟩
  · have reached : cutoff ≤ depth := sound cutoff rfl
    refine ⟨⟨depth + 1, some cutoff, inside, seen⟩, ?_, by simp [still], by simp [Sound]; omega, fun es => ?_⟩
    · have deeper : decide (cutoff < depth + 1) = true := decide_eq_true (Nat.lt_succ_of_le reached)
      simp only [still, enter, Option.any_some, deeper, if_true, Option.isSome_some, Bool.true_or, Bool.not_true,
        Bool.and_false]
    · simp [leave, saw, Nat.not_lt.2 reached]

end Walk

-- From a walk at any place, the step leaves the counters alone, comes by `es`, and returns `old` where it may
-- change nothing and `new` elsewhere.
def Walks {β : Type} (x : StateM Walk β) (old new : β) (es : List Expr) : Prop :=
  ∀ w : Walk, w.Sound → x w = (bif w.still then old else new, w.saw es)

section

variable {α β γ : Type} {x : StateM Walk α} {y : StateM Walk β} {a a' : α} {b b' : β} {l m : List Expr}

theorem walks_pure : Walks (pure a) a a [] := by
  intro w _
  show (a, w) = _
  simp [Walk.saw]

theorem Walks.after (e : Expr) (rest : Walks x a a' l) : Walks (do modify (·.saw [e]); x) a a' (e :: l) := by
  intro w sound
  show x (w.saw [e]) = _
  rw [rest (w.saw [e]) sound]
  simp [Walk.saw, Walk.still]

theorem Walks.two {k : α → β → γ} (first : Walks x a a' l) (second : Walks y b b' m) :
    Walks (do return k (← x) (← y)) (k a b) (k a' b') (l ++ m) := by
  intro w sound
  show (k (x w).1 (y (x w).2).1, (y (x w).2).2) = _
  have same : (w.saw l).still = w.still := rfl
  rw [first w sound, second (w.saw l) sound, same]
  cases w.still <;> simp [Walk.saw]

theorem Walks.map {k : α → γ} (first : Walks x a a' l) : Walks (do return k (← x)) (k a) (k a') l := by
  simpa using first.two (k := fun a _ => k a) (walks_pure (a := ()))

end

variable {s : Surroundings}

theorem Expr.walkGroups_append (gs hs : List (Option (List Expr))) :
    Expr.walkGroups s (gs ++ hs) = do return (← Expr.walkGroups s gs) ++ (← Expr.walkGroups s hs) := by
  induction gs with
  | nil => simp [Expr.walkGroups]
  | cons g gs ih => cases g <;> simp [Expr.walkGroups, ih]

mutual

theorem Expr.walks (e : Expr) : Walks (e.walk s) e (e.qualify s) e.within := by
  rw [Expr.walk.eq_def, Expr.within.eq_def, Expr.qualify.eq_def]
  match e with
  | .ref r => exact r.walks.map.after _
  | .apply o es => exact (o.walks.two (Expr.walksAll es)).after _
  | .conditional cs es => exact ((Expr.walksAll cs).two (Expr.walksAll es)).after _
  | .array es | .tuple es => exact (Expr.walksAll es).map.after _
  | .slice a b c =>
    exact (a.walks.two (k := fun a p => Expr.slice a p.1 p.2) (b.walks.two (k := Prod.mk) c.walks)).after _
  | .literal _ | .component _ | .modification _ => exact walks_pure.after _

theorem Expr.walksAll (es : List Expr) : Walks (Expr.walkAll s es) es (Expr.qualifyAll s es) (Expr.allWithin es) := by
  rw [Expr.walkAll.eq_def, Expr.allWithin.eq_def, Expr.qualifyAll.eq_def]
  match es with
  | [] => exact walks_pure
  | e :: es => exact e.walks.two (Expr.walksAll es)

theorem Expr.walksGroups (groups : List (Option (List Expr))) :
    Walks (Expr.walkGroups s groups) groups (Expr.qualifyGroups s groups) (Expr.groupsWithin groups) := by
  rw [Expr.walkGroups.eq_def, Expr.groupsWithin.eq_def, Expr.qualifyGroups.eq_def]
  match groups with
  | [] => exact walks_pure
  | none :: rest => exact (Expr.walksGroups rest).map
  | some es :: rest => exact (Expr.walksAll es).two (Expr.walksGroups rest)

theorem Operator.walks (o : Operator) : Walks (o.walk s) o (o.qualify s) o.within := by
  rw [Operator.walk.eq_def, Operator.within.eq_def, Operator.qualify.eq_def]
  match o with
  | .named _ => exact walks_pure
  | .function r => exact r.walks.map

theorem ComponentRef.walksRest (child : Option ComponentRef) : Walks (Expr.walkGroups s (ComponentRef.rest child))
    (ComponentRef.rest child) (ComponentRef.qualifyRest s child) (ComponentRef.childWithin child) := by
  rw [ComponentRef.rest.eq_def, ComponentRef.qualifyRest.eq_def, ComponentRef.childWithin.eq_def]
  match child with
  | none =>
    rw [Expr.walkGroups]
    exact walks_pure
  | some (.mk _ groups child) =>
    dsimp only
    rw [Expr.walkGroups_append, ComponentRef.within]
    exact (Expr.walksGroups groups).two (ComponentRef.walksRest child)

theorem ComponentRef.walksChild (child : Option ComponentRef) : Walks (ComponentRef.walkChild s child) child
    (child.map (ComponentRef.qualify s)) (ComponentRef.childWithin child) := by
  rw [ComponentRef.walkChild.eq_def, ComponentRef.childWithin.eq_def]
  match child with
  | none => exact walks_pure
  | some c => exact c.walks.map

theorem ComponentRef.walks (r : ComponentRef) : Walks (r.walk s) r (r.qualify s) r.within := by
  match r with
  | .mk name groups child =>
    intro w sound
    rw [ComponentRef.walk, ComponentRef.qualify, ComponentRef.within]
    generalize s.before ++ ComponentRef.text _ = full
    obtain ⟨now, entered, still, fine, left⟩ := w.enter_cases s full sound
    -- a changed reference is walked with the subscripts it has taken over, any other part by part
    have kept := (Expr.walksGroups groups).two (k := ComponentRef.mk name) (ComponentRef.walksChild child) now fine
    have taken := ((Expr.walksGroups groups).two (k := (· ++ ·)) (ComponentRef.walksRest child)).map
      (k := (ComponentRef.mk full · none)) now fine
    rw [← Expr.walkGroups_append] at taken
    simp only [entered]
    cases known : s.known full <;> cases here : w.still
    all_goals simp_all

end

-- What a model is made of, down to its expressions.
inductive Construct where
  | empty
  | expr (e : Expr)
  | both (first second : Construct)
  -- An argument that knows where it was written.
  | placed (c : Construct)

namespace Construct

def walk (s : Surroundings) : Construct → StateM Walk Construct
  | .empty => return .empty
  | .expr e => return .expr (← e.walk s)
  | .both c d => return .both (← c.walk s) (← d.walk s)
  | .placed c => do
    modify fun w => { w with inside := w.inside + 1 }
    let c ← c.walk s
    modify fun w => { w with inside := w.inside - 1 }
    return .placed c

def qualify (s : Surroundings) : Construct → Construct
  | .expr e => .expr (e.qualify s)
  | .both c d => .both (c.qualify s) (d.qualify s)
  | c => c

def within : Construct → List Expr
  | .empty => []
  | .expr e => e.within
  | .both c d => c.within ++ d.within
  | .placed c => c.within

theorem walks (c : Construct) : Walks (c.walk s) c (c.qualify s) c.within := by
  induction c with
  | empty => exact walks_pure
  | expr e => exact e.walks.map
  | both _ _ first second => exact first.two second
  | placed c ih =>
    intro w sound
    show (fun p : _ × Walk => (placed p.1, { p.2 with inside := p.2.inside - 1 }))
      (c.walk s { w with inside := w.inside + 1 }) = _
    rw [ih { w with inside := w.inside + 1 } sound]
    simp [Walk.still, Walk.saw, qualify, within]

-- The walk makes what qualifying makes, comes by every expression once, and leaves its counters as they were.
theorem walk_qualifies (s : Surroundings) (c : Construct) : c.walk s {} = (c.qualify s, { seen := c.within }) :=
  c.walks {} (by simp [Walk.Sound])

end Construct

end Modelica
