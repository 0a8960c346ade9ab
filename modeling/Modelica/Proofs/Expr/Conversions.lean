import Mathlib.Data.List.Forall2
import Modelica.Proofs.Expr.Bare

set_option autoImplicit false

namespace Modelica

theorem Text.splitChars_eq_cons (sep : Char) (cs : List Char) : ∃ part parts, splitChars sep cs = part :: parts := by
  cases cs with
  | nil => exact ⟨_, _, rfl⟩
  | cons c cs =>
    rw [splitChars]
    split
    · exact ⟨_, _, rfl⟩
    · split <;> exact ⟨_, _, rfl⟩

theorem Text.join_split (sep : Char) (s : String) : join (String.singleton sep) (split sep s) = s := by
  have all (cs : List Char) : [sep].intercalate (splitChars sep cs) = cs := by
    induction cs with
    | nil => rfl
    | cons c cs ih =>
      obtain ⟨part, parts, first⟩ := splitChars_eq_cons sep cs
      rw [first] at ih
      rw [splitChars, first]
      split
      · next same => simp [ih, same]
      · cases parts <;> simp_all
  apply String.toList_inj.1
  simp [join, split, String.toList_intercalate, Function.comp_def, all]

-- A part of a reference as a node that others may point to as well.
structure RefNode where
  name : String
  groups : List (Option (List Expr))
  child : Option Nat

abbrev RefNodes := List RefNode

namespace RefNodes

-- The nodes from `id` to `last` make up the reference, and all of them stand from `low` on.
inductive Holds (low : Nat) (s : RefNodes) : Nat → ComponentRef → Nat → Prop
  | last {id : Nat} {name : String} {groups : List (Option (List Expr))} (above : low ≤ id)
      (read : s[id]? = some ⟨name, groups, none⟩) : Holds low s id (.mk name groups none) id
  | more {id child last : Nat} {name : String} {groups : List (Option (List Expr))} {r : ComponentRef}
      (above : low ≤ id) (read : s[id]? = some ⟨name, groups, some child⟩) (rest : Holds low s child r last) :
      Holds low s id (.mk name groups (some r)) last

-- The fuel bounds the number of parts.
def copy : Nat → RefNodes → Nat → RefNodes × Nat
  | 0, s, id => (s, id)
  | fuel + 1, s, id =>
    match s[id]? with
    | none => (s, id)
    | some ⟨name, groups, none⟩ => (s ++ [⟨name, groups, none⟩], s.length)
    | some ⟨name, groups, some child⟩ =>
      let (t, new) := copy fuel s child
      (t ++ [⟨name, groups, some new⟩], t.length)

def lastNode : Nat → RefNodes → Nat → Nat
  | 0, _, id => id
  | fuel + 1, s, id =>
    match s[id]?.bind RefNode.child with
    | none => id
    | some child => lastNode fuel s child

def link (s : RefNodes) (id child : Nat) : RefNodes :=
  s.modify id fun d => { d with child := some child }

theorem getElem?_link_ne {s : RefNodes} {id i child : Nat} (apart : id ≠ i) : (s.link id child)[i]? = s[i]? := by
  simp [link, apart]

-- The copy of a reference is put behind the last node that is reached.
def join (fuel : Nat) (at_ : RefNodes × Nat) (id : Nat) : RefNodes × Nat :=
  let node := lastNode fuel at_.1 at_.2
  let (t, new) := copy fuel at_.1 id
  (t.link node new, node)

def concat (fuel : Nat) (s : RefNodes) : List Nat → Option (RefNodes × Nat)
  | [] => none
  | id :: rest =>
    let first := copy fuel s id
    some ((rest.foldl (join fuel) first).1, first.2)

section

variable {low : Nat} {s t : RefNodes} {id last fuel : Nat} {r : ComponentRef}

theorem Holds.mono {lower : Nat} (holds : Holds low s id r last) (lowers : lower ≤ low)
    (same : ∀ i, low ≤ i → i < s.length → t[i]? = s[i]?) : Holds lower t id r last := by
  induction holds with
  | last above read => exact .last (Nat.le_trans lowers above) ((same _ above (List.getElem?_eq_some_iff.1 read).1).trans read)
  | more above read _ ih =>
    exact .more (Nat.le_trans lowers above) ((same _ above (List.getElem?_eq_some_iff.1 read).1).trans read) ih

theorem Holds.lastNode (holds : Holds low s id r last) (enough : r.names.length ≤ fuel + 1) :
    lastNode fuel s id = last := by
  induction holds generalizing fuel with
  | last _ read => cases fuel <;> simp [RefNodes.lastNode, read]
  | @more _ _ _ _ _ r _ read _ ih =>
    obtain ⟨more, names⟩ := r.names_eq_cons
    rw [ComponentRef.names, names, List.length_cons, List.length_cons] at enough
    obtain ⟨fuel, rfl⟩ : ∃ n, fuel = n + 1 := ⟨fuel - 1, by omega⟩
    rw [RefNodes.lastNode, read]
    exact ih (by rw [names, List.length_cons]; omega)

-- The last node is the only one without a part behind it.
theorem Holds.end_ (holds : Holds low s id r last) :
    low ≤ last ∧ ∃ name groups, s[last]? = some ⟨name, groups, none⟩ := by
  induction holds with
  | last above read => exact ⟨above, _, _, read⟩
  | more _ _ _ ih => exact ih

theorem copy_holds (holds : Holds low s id r last) (enough : r.names.length ≤ fuel) :
    ∃ more end_, (copy fuel s id).1 = s ++ more ∧ Holds s.length (s ++ more) (copy fuel s id).2 r end_ := by
  induction holds generalizing fuel with
  | @last _ name groups _ read =>
    obtain ⟨fuel, rfl⟩ : ∃ n, fuel = n + 1 := ⟨fuel - 1, by rw [ComponentRef.names, List.length_singleton] at enough; omega⟩
    rw [copy, read]
    exact ⟨_, _, rfl, .last (Nat.le_refl _) (by simp)⟩
  | @more _ _ _ _ _ r _ read _ ih =>
    rw [ComponentRef.names, List.length_cons] at enough
    obtain ⟨fuel, rfl⟩ : ∃ n, fuel = n + 1 := ⟨fuel - 1, by omega⟩
    obtain ⟨more, end_, nodes, copied⟩ := ih (Nat.le_of_succ_le_succ enough)
    rw [copy, read]
    simp only [nodes, List.append_assoc]
    refine ⟨_, end_, rfl, .more (by simp) ?_ (copied.mono (Nat.le_refl _) fun i _ within => ?_)⟩
    · rw [← List.append_assoc]
      simp
    · rw [← List.append_assoc, List.getElem?_append_left within]

theorem Holds.link {more : RefNodes} {new end_ : Nat} {other : ComponentRef} (holds : Holds low s id r last)
    (below : low ≤ s.length) (copied : Holds s.length (s ++ more) new other end_) :
    Holds low ((s ++ more).link last new) id (r.append other) end_ := by
  obtain ⟨above, name, groups, ends⟩ := holds.end_
  have within := (List.getElem?_eq_some_iff.1 ends).1
  induction holds with
  | @last id _ _ _ read =>
    refine .more above ?_ (copied.mono below fun i from_ _ => ?_)
    · simp [RefNodes.link, List.getElem?_append_left within, read]
    · exact getElem?_link_ne (by omega)
  | @more id _ last _ _ _ from_ read _ ih =>
    refine .more from_ ?_ (ih above ends within)
    have apart : last ≠ id := by
      rintro rfl
      rw [read] at ends
      cases ends
    rw [getElem?_link_ne apart, List.getElem?_append_left (List.getElem?_eq_some_iff.1 read).1, read]

end

-- What joining has come to: the reference from `first` on is joined, and the nodes that were there are unchanged.
structure Joined (fuel : Nat) (s : RefNodes) (first : Nat) (r : ComponentRef) (at_ : RefNodes × Nat) : Prop where
  kept : at_.1.take s.length = s
  held : ∃ last, Holds s.length at_.1 first r last ∧
    ∃ tail, Holds s.length at_.1 at_.2 tail last ∧ tail.names.length ≤ fuel + 1

theorem Joined.join {fuel first id last : Nat} {s : RefNodes} {r other : ComponentRef} {at_ : RefNodes × Nat}
    (joined : Joined fuel s first r at_) (holds : Holds 0 s id other last) (enough : other.names.length ≤ fuel) :
    Joined fuel s first (r.append other) (join fuel at_ id) := by
  obtain ⟨last, held, tail, after, short⟩ := joined.held
  have more : s.length ≤ at_.1.length := by
    have lengths := congrArg List.length joined.kept
    rw [List.length_take] at lengths
    omega
  have still : Holds 0 at_.1 id other _ := holds.mono (Nat.le_refl _) fun i _ within => by
    rw [← List.getElem?_take_of_lt within, joined.kept]
  obtain ⟨new, end_, nodes, copied⟩ := copy_holds still enough
  obtain ⟨above, name, groups, ends⟩ := held.end_
  have node : Holds s.length at_.1 last (.mk name groups none) last := .last above ends
  rw [RefNodes.join, after.lastNode short]
  simp only [nodes]
  refine ⟨?_, end_, held.link more copied, _, node.link more copied, ?_⟩
  · refine List.ext_getElem? fun i => ?_
    by_cases within : i < s.length
    · rw [List.getElem?_take_of_lt within, getElem?_link_ne (by omega), List.getElem?_append_left (by omega),
        ← List.getElem?_take_of_lt within, joined.kept]
    · rw [List.getElem?_eq_none (by simp; omega), List.getElem?_eq_none (by omega)]
  · rw [ComponentRef.append, ComponentRef.names, List.length_cons]
    omega

theorem concat_holds {fuel : Nat} {s : RefNodes} {id : Nat} {rest : List Nat} {r : ComponentRef} {refs : List ComponentRef}
    (each : List.Forall₂ (fun i x => (∃ last, Holds 0 s i x last) ∧ x.names.length ≤ fuel) (id :: rest) (r :: refs)) :
    ∃ t first last, s.concat fuel (id :: rest) = some (t, first) ∧ t.take s.length = s ∧
      Holds s.length t first (refs.foldl ComponentRef.append r) last := by
  obtain ⟨⟨⟨last, holds⟩, enough⟩, others⟩ := List.forall₂_cons.1 each
  obtain ⟨new, end_, nodes, copied⟩ := copy_holds holds enough
  have begun : Joined fuel s (copy fuel s id).2 r (copy fuel s id) := by
    refine ⟨by simp [nodes], end_, ?_⟩
    rw [nodes]
    exact ⟨copied, r, copied, by omega⟩
  have all : Joined fuel s (copy fuel s id).2 (refs.foldl ComponentRef.append r) (rest.foldl (join fuel) (copy fuel s id)) := by
    clear each holds nodes copied enough
    generalize copy fuel s id = at_ at begun ⊢
    generalize at_.2 = first at begun ⊢
    induction others generalizing r at_ with
    | nil => exact begun
    | cons here _ ih =>
      obtain ⟨⟨last, holds⟩, enough⟩ := here
      exact ih _ (begun.join holds enough)
  obtain ⟨last, held, -⟩ := all.held
  exact ⟨_, _, last, rfl, all.kept, held⟩

end RefNodes

namespace ComponentRef

def Unsubscripted : ComponentRef → Prop
  | .mk _ groups none => groups = [none]
  | .mk _ groups (some c) => groups = [none] ∧ c.Unsubscripted

theorem ofNames?_names (r : ComponentRef) : ofNames? r.names = some r ↔ r.Unsubscripted := by
  match r with
  | .mk name groups none => simp [names, ofNames?, ofNames, simple, Unsubscripted, eq_comm]
  | .mk name groups (some c) =>
    have rest := ofNames?_names c
    obtain ⟨more, all⟩ := c.names_eq_cons
    rw [all, ofNames?, Option.some_inj, eq_comm] at rest
    rw [names, all, ofNames?, ofNames, Unsubscripted, ← rest]
    simp [eq_comm]

theorem text_ofText (s : String) : (ofText s).text = s := by
  have back := Text.join_split '.' s
  obtain ⟨part, parts, first⟩ := Text.splitChars_eq_cons '.' s.toList
  rw [Text.split, first] at back
  rw [ofText, Text.split, first]
  exact (congrArg _ (names_ofNames ..)).trans back

theorem append_assoc (a b c : ComponentRef) : (a.append b).append c = a.append (b.append c) := by
  match a with
  | .mk name groups none => rfl
  | .mk name groups (some child) => simp only [append, append_assoc child b c]

theorem foldl_append (a b : ComponentRef) (rest : List ComponentRef) :
    rest.foldl append (a.append b) = a.append (rest.foldl append b) := by
  induction rest generalizing b with
  | nil => rfl
  | cons c rest ih => rw [List.foldl_cons, append_assoc, ih, List.foldl_cons]

theorem names_foldl (r : ComponentRef) (rest : List ComponentRef) :
    (rest.foldl append r).names = r.names ++ rest.flatMap names := by
  induction rest generalizing r with
  | nil => simp
  | cons next rest ih => simp [ih]

theorem foldl_flatten (r : ComponentRef) (groups : List (List ComponentRef)) :
    (groups.filterMap concat?).foldl append r = groups.flatten.foldl append r := by
  induction groups generalizing r with
  | nil => rfl
  | cons group groups ih =>
    cases group with
    | nil => exact ih r
    | cons s rest => simp [concat?, ih, ← foldl_append]

-- References are joined in any grouping. What is joined is made of new nodes, and all nodes that were there before
-- stay as they are.
theorem conversions_agree : (∀ first rest, (ofNames? (first :: rest)).map names = some (first :: rest)) ∧
    (∀ s, (ofText s).text = s) ∧ (∀ r, ofNames? r.names = some r ↔ r.Unsubscripted) ∧
    (∀ r rest, (concat? (r :: rest)).map names = some ((r :: rest).flatMap names)) ∧
    (∀ groups : List (List ComponentRef), concat? (groups.filterMap concat?) = concat? groups.flatten) ∧
    ∀ (fuel : Nat) (nodes : RefNodes) (id : Nat) (rest : List Nat) (r : ComponentRef) (refs : List ComponentRef),
      List.Forall₂ (fun i x => (∃ last, nodes.Holds 0 i x last) ∧ x.names.length ≤ fuel) (id :: rest) (r :: refs) →
      ∃ next first last joined, nodes.concat fuel (id :: rest) = some (next, first) ∧
        next.take nodes.length = nodes ∧ concat? (r :: refs) = some joined ∧
        RefNodes.Holds nodes.length next first joined last := by
  refine ⟨fun first rest => congrArg some (names_ofNames first rest), text_ofText, ofNames?_names,
    fun r rest => congrArg some (names_foldl r rest), fun groups => ?_, fun fuel nodes id rest r refs each => ?_⟩
  · induction groups with
    | nil => rfl
    | cons group groups ih =>
      cases group with
      | nil => exact ih
      | cons r rest => simp [concat?, foldl_flatten]
  · obtain ⟨next, first, last, ran, kept, held⟩ := RefNodes.concat_holds each
    exact ⟨next, first, last, _, ran, kept, rfl, held⟩

-- The reference `a` is joined with `b.c` and once more with itself.
theorem conversions_agree_repeated : ∃ next first last,
    RefNodes.concat 2 [⟨"a", [none], none⟩, ⟨"b", [none], some 2⟩, ⟨"c", [none], none⟩] [0, 1, 0] = some (next, first) ∧
      next.take 3 = [⟨"a", [none], none⟩, ⟨"b", [none], some 2⟩, ⟨"c", [none], none⟩] ∧
      RefNodes.Holds 3 next first (.ofNames "a" ["b", "c", "a"]) last := by
  obtain ⟨-, -, -, -, -, joins⟩ := conversions_agree
  obtain ⟨next, first, last, _, ran, kept, ⟨⟩, held⟩ := joins 2
    [⟨"a", [none], none⟩, ⟨"b", [none], some 2⟩, ⟨"c", [none], none⟩] 0 [1, 0] (.simple "a")
    [.ofNames "b" ["c"], .simple "a"]
    (.cons ⟨⟨0, .last (Nat.zero_le _) rfl⟩, by decide⟩ (.cons
      ⟨⟨2, .more (Nat.zero_le _) rfl (.last (Nat.zero_le _) rfl)⟩, by decide⟩
      (.cons ⟨⟨0, .last (Nat.zero_le _) rfl⟩, by decide⟩ .nil)))
  exact ⟨next, first, last, ran, kept, held⟩

end ComponentRef

end Modelica
