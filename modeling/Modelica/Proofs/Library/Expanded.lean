import Modelica.Library.Connect
import Modelica.Proofs.Library.FlatPaths

set_option autoImplicit false

namespace Modelica.Build

open Library

variable {ok : String → Bool} {mid next : Library} {s : SymbolId}

structure Wired (ok : String → Bool) (lib : Library) (node : ClassId) : Prop where
  light : lib.Light ok
  known : node.index < lib.classes.size
  placed : ∀ t ∈ (lib.classOf node).symbols.values, lib.Placed ok node.index t
  sockets : ∀ t ∈ (lib.classOf node).symbols.values, ∀ d, (lib.symbolOf t).connectorType = some d →
    ∀ m ∈ (lib.classOf d).symbols.values, m ∉ (lib.classOf node).symbols.values

def InConnector (lib : Library) (node : ClassId) (m : SymbolId) : Prop :=
  ∃ t ∈ (lib.classOf node).symbols.values, ∃ d, (lib.symbolOf t).connectorType = some d ∧
    m ∈ (lib.classOf d).symbols.values

structure Expanding (ok : String → Bool) (base : Library) (node : ClassId) (next : Library) : Prop where
  light : next.Light ok
  unmoved : base.Unmoved ok (InConnector base node) next

section Expanding

variable {base : Library} {node : ClassId}

theorem Expanding.skeleton (wired : Wired ok base node) (expanding : Expanding ok base node next)
    {t : SymbolId} (member : t ∈ (base.classOf node).symbols.values) :
    (next.symbolOf t).skeleton = (base.symbolOf t).skeleton := by
  refine expanding.unmoved.symbolOf t (wired.placed t member).known ?_
  rintro ⟨u, listed, d, has, inside⟩
  exact wired.sockets u listed d has t inside member

theorem Expanding.later (expanding : Expanding ok base node mid)
    (steady : mid.Steady never next) (light : next.Light ok) : Expanding ok base node next :=
  ⟨light, expanding.unmoved.trans steady.unmoved⟩

theorem connectorClass_placed {bound : Nat} (light : mid.Light ok) (placed : mid.Placed ok bound s) :
    (connectorClass node s).Ensures mid (fun c next => next = mid ∧
      (mid.symbolOf s).connectorType = some c) fun _ next => next = mid := by
  unfold connectorClass
  rw [bind_symbolOf]
  obtain variable_ | ⟨c, socket, -⟩ := placed
  · obtain ⟨r, type, holds⟩ := variable_.type
    simp only [variable_.connectorType, type]
    exact instantiable_of_ok light node r holds rfl rfl
  · simp only [socket.connectorType]
    exact .pure ⟨rfl, rfl⟩

theorem connectorOf_placed {bound : Nat} {l r : SymbolId} (light : mid.Light ok)
    (left : mid.Placed ok bound l) (right : mid.Placed ok bound r) :
    (connectorOf node l r).Ensures mid (fun c next => next = mid ∧
      ∀ d, c = some d → (mid.symbolOf l).connectorType = some d) anyhow := by
  unfold connectorOf
  rw [ensures_tryCatch, ensures_bind]
  refine (connectorClass_placed light left).mono ?_ ?_
  · rintro c _ ⟨rfl, has⟩
    rw [ensures_bind]
    refine (connectorClass_placed light right).mono ?_ ?_
    · rintro _ _ ⟨rfl, -⟩
      refine .pure ⟨rfl, ?_⟩
      rintro _ ⟨⟩
      exact has
    · rintro e _ rfl
      split
      · exact .pure ⟨rfl, by rintro _ ⟨⟩⟩
      · exact .throw
  · rintro e _ rfl
    split
    · exact .pure ⟨rfl, by rintro _ ⟨⟩⟩
    · exact .throw

theorem calm_elementaryName (s : SymbolId) : Calm ok (elementaryName s) := by
  refine calm.andThen (calm.symbolOf s) fun d => ?_
  split
  · exact calm.returned _
  · exact respects_throw _

theorem calm_warn (text : String) : Calm ok (warn text) := fun lib => by
  have run : warn text lib = .ok () { lib with warnings := lib.warnings.push text } := rfl
  rw [ensures_of_eq run]
  exact fun light => ⟨.of_eq rfl rfl, light.classes, light.symbols, light.arguments⟩

theorem connectEquation_expands (wired : Wired ok base node) (dotted : Dotted ok)
    (expanding : Expanding ok base node mid) (fuel : Nat) (work : Connecting) (e : Equation) :
    (connectEquation fuel node work e).Ensures mid (fun _ next => Expanding ok base node next) anyhow := by
  cases e with
  | connect left right comment sides =>
    cases single : left.child.isSome with
    | true =>
      simp only [connectEquation, single, if_true, ensures_bind, ensures_throw, anyhow]
    | false =>
    cases other : right.child.isSome with
    | true =>
      simp only [connectEquation, single, other, if_true, Bool.false_eq_true, if_false, ensures_bind,
        ensures_throw, anyhow]
    | false =>
    have stored := expanding.unmoved.classOf node wired.known
    have placed : ∀ n t, (mid.classOf node).symbols.find? n = some t → t ∈ (base.classOf node).symbols.values ∧
        mid.Placed ok node.index t := by
      intro n t found
      rw [stored] at found
      have member : t ∈ (base.classOf node).symbols.values :=
        List.mem_map_of_mem (OrderedMap.mem_entries_of_find? _ n t found)
      exact ⟨member, (wired.placed t member).unmoved expanding.unmoved⟩
    simp only [connectEquation, single, other, Bool.false_eq_true, if_false, ensures_bind, symbolEntry, ensures_classOf]
    cases entryLeft : (mid.classOf node).symbols.find? left.name with
    | none => exact .throw
    | some l =>
    rw [ensures_pure]
    cases entryRight : (mid.classOf node).symbols.find? right.name with
    | none => exact .throw
    | some r =>
    obtain ⟨member, placedLeft⟩ := placed _ l entryLeft
    obtain ⟨-, placedRight⟩ := placed _ r entryRight
    rw [ensures_pure]
    refine (connectorOf_placed expanding.light placedLeft placedRight).imp ?_
    rintro c now ⟨same, has⟩
    subst same
    cases c with
    | none =>
      refine Ensures.imp (calm_iff.1 (calm.andThen ?_ ?_) now expanding.light) fun _ next same =>
        expanding.later same.1 same.2
      · refine calm.andThen (calm_elementaryName l) fun n => ?_
        split
        · exact calm.andThen (calm_elementaryName r) fun _ => calm.returned _
        · exact calm.returned _
      · intro known
        split
        · exact calm.returned _
        · exact calm.andThen (calm.symbolOf l) fun _ => calm.andThen (calm.symbolOf r) fun _ =>
            calm.andThen (calm_warn _) fun _ => calm.returned _
    | some c =>
      have kept : (base.symbolOf l).connectorType = some c :=
        (congrArg Skeleton.connectorType (expanding.skeleton wired member)).symm.trans (has c rfl)
      obtain variable_ | ⟨d, socket, -⟩ := wired.placed l member
      · rw [variable_.connectorType] at kept
        cases kept
      · rw [socket.connectorType] at kept
        cases kept
        rw [ensures_bind]
        refine (flattenClass_bundle (fun less _ => flattens dotted less) expanding.light
          (socket.bundle.unmoved expanding.unmoved)).imp ?_
        rintro flat next kept
        have after : Expanding ok base node next := by
          refine ⟨kept.light, expanding.unmoved.trans (kept.unmoved.weaken fun t _ inside => ?_)⟩
          rw [expanding.unmoved.classOf c socket.bundle.known] at inside
          exact ⟨l, member, c, socket.connectorType, inside⟩
        simp only [ensures_bind, ensures_classOf]
        refine ensures_forIn _ _ _ (fun _ _ last => last = next) rfl ?_ ?_
        · rintro done s rest w last - rfl
          rw [bind_symbolOf, ensures_bind]
          cases connectVariable left right sides (last.symbolOf s) w with
          | error e => exact .throw
          | ok w => exact .pure (.pure rfl)
        · rintro w last rfl
          exact .pure after
  | _ =>
    unfold connectEquation
    exact .pure expanding

theorem expandConnectors_keeps (wired : Wired ok base node) (dotted : Dotted ok) (fuel : Nat) :
    (expandConnectors fuel node).Ensures base (fun _ next =>
      (next.classOf node).symbols = ⟨(base.classOf node).symbols.entries.filter fun e =>
        (base.symbolOf e.2).connectorType.isNone⟩ ∧
      ∀ t ∈ (base.classOf node).symbols.values,
        (next.symbolOf t).skeleton = (base.symbolOf t).skeleton) anyhow := by
  unfold expandConnectors
  simp only [ensures_bind, ensures_classOf]
  refine ensures_forIn _ _ _ (fun _ _ mid => mid = base) rfl ?_ ?_
  · rintro done s rest idle mid - rfl
    rw [bind_symbolOf]
    split <;> exact .pure rfl
  · rintro idle mid rfl
    refine ensures_forIn _ _ _ (fun _ _ next => Expanding ok mid node next) ⟨wired.light, .refl mid⟩ ?_ ?_
    · rintro done e rest work now - expanding
      rw [ensures_bind]
      refine (connectEquation_expands wired dotted expanding fuel work e).imp fun _ next later => ?_
      exact .pure later
    · rintro work next expanding
      rw [ensures_get, ensures_updateClass]
      have known : node.In next := wired.known.trans_le expanding.unmoved.moreClasses
      refine ⟨?_, fun t member => expanding.skeleton wired member⟩
      rw [classOf_modifyClass_self next node _ known, expanding.unmoved.classOf node wired.known]
      refine congrArg OrderedMap.mk (List.filter_congr fun e member => ?_)
      have same := expanding.skeleton wired (List.mem_map_of_mem member)
      rw [show (next.symbolOf e.2).connectorType = _ from congrArg Skeleton.connectorType same]
      rfl

end Expanding

end Modelica.Build
