import Modelica.Proofs.Formula.Grouping

set_option autoImplicit false

namespace Modelica.Formula

def After (n : Nat) : List Token → Prop
  | [] => True
  | .closing :: _ => True
  | .comma :: _ => True
  | .sign s :: _ => s.level ≤ n
  | _ => False

theorem After.mono {m n : Nat} {ts : List Token} (after : After m ts) (le : m ≤ n) : After n ts := by
  match ts with
  | [] | .closing :: _ | .comma :: _ => trivial
  | .sign s :: _ => exact Nat.le_trans after le

section

variable (fuel : Nat) (e : Formula) (ts : List Token)

theorem diffs_of_after (after : After 4 ts) : diffs (fuel + 1) e ts = some (e, ts) := by
  match ts with
  | [] | .closing :: _ | .comma :: _ | .sign _ :: _ => simp [diffs]

theorem productRest_of_after (after : After 1 ts) : productRest (fuel + 1) e ts = some (e, ts) := by
  match ts with
  | [] | .closing :: _ | .comma :: _ => simp [productRest]
  | .sign s :: _ => cases s <;> simp_all [productRest, After, FormulaSign.level]

theorem sumRest_of_after (after : After 0 ts) : sumRest (fuel + 1) e ts = some (e, ts) := by
  match ts with
  | [] | .closing :: _ | .comma :: _ => simp [sumRest]
  | .sign s :: _ => cases s <;> simp_all [After, FormulaSign.level]

end

theorem toTokens_unsigned (e : Formula) (level : 5 ≤ e.level) (rest : List Token)
    (s : FormulaSign) (ts : List Token) : e.toTokens ++ rest ≠ .sign s :: ts := by
  cases e with
  | signed t e => simp [Formula.level] at level
  | binary t l r => cases t <;> simp [Formula.level, FormulaSign.level] at level
  | _ => simp [toTokens]

theorem toTokens_head (e : Formula) : ∃ t ts, e.toTokens = t :: ts ∧ t ≠ .closing := by
  cases e with
  | binary s l r =>
    obtain ⟨t, ts, same, other⟩ := toTokens_head l
    exact ⟨t, ts ++ .sign s :: r.toTokens, by simp [toTokens, same], other⟩
  | _ => simp [toTokens]

theorem length_toTokens_pos (e : Formula) : 1 ≤ e.toTokens.length := by
  obtain ⟨t, ts, same, _⟩ := toTokens_head e
  simp [same]

theorem furtherTokens_cons (e : Formula) (es : List Formula) :
    furtherTokens (e :: es) = .comma :: argumentTokens (e :: es) := by
  simp [furtherTokens, argumentTokens]

theorem length_furtherTokens_pos (es : List Formula) : 1 ≤ (furtherTokens es).length := by
  cases es <;> simp [furtherTokens]

theorem after_furtherTokens (es : List Formula) (rest : List Token) : After 0 (furtherTokens es ++ rest) := by
  cases es <;> simp [furtherTokens, After]

theorem factor_of_primary (fuel : Nat) (e : Formula) (ts rest : List Token)
    (unsigned : ∀ s us, ts ≠ .sign s :: us) (read : primary fuel ts = some (e, rest))
    (after : After 2 rest) : factor (fuel + 1) ts = some (e, rest) := by
  rw [factor]
  · simp only [read, Option.bind_eq_bind, Option.bind_some]
    match rest with
    | [] | .closing :: _ | .comma :: _ => rfl
    | .sign s :: _ => cases s <;> first | rfl | simp [After, FormulaSign.level] at after
  · exact unsigned .plus
  · exact unsigned .minus

theorem factor_power (fuel : Nat) (e r : Formula) (ts us rest : List Token) (unsigned : ∀ s us, ts ≠ .sign s :: us)
    (read : primary fuel ts = some (e, .sign .power :: us)) (exponent : factor fuel us = some (r, rest)) :
    factor (fuel + 1) ts = some (.binary .power e r, rest) := by
  rw [factor]
  · simp [read, exponent]
  · exact unsigned .plus
  · exact unsigned .minus

mutual

theorem primary_toTokens (e : Formula) (grouped : e.Grouped) (readable : e.Readable)
    (level : 5 ≤ e.level) (fuel : Nat) (enough : 8 * e.toTokens.length ≤ fuel)
    (rest : List Token) (after : After 4 rest) : primary fuel (e.toTokens ++ rest) = some (e, rest) := by
  obtain ⟨n, rfl⟩ : ∃ n, fuel = n + 2 := ⟨fuel - 2, by have := length_toTokens_pos e; omega⟩
  cases e with
  | number t => simp [toTokens, primary]
  | name s =>
    have free : s ∈ keywords → s ∈ constants := readable.2
    match rest with
    | [] | .closing :: _ | .comma :: _ | .sign _ :: _ => simpa [toTokens, primary, diffs] using free
  | signed s e => simp [Formula.level] at level
  | binary s l r => cases s <;> simp [Formula.level, FormulaSign.level] at level
  | call f es =>
    have free : f ∉ keywords := readable.1.2
    have read := arguments_argumentTokens es grouped readable.2 (n + 1) (by simp [toTokens] at enough; omega) rest
    simp [toTokens, primary, free, read, diffs_of_after n _ rest after]
  | diff e =>
    have read := sum_toTokens e grouped readable (n + 1) (by simp [toTokens] at enough; omega)
      (.closing :: (diffTokens ++ rest)) trivial
    obtain ⟨m, rfl⟩ : ∃ m, n = m + 1 := ⟨n - 1, by simp [toTokens] at enough; omega⟩
    simp [toTokens, primary, read]
    simp [diffTokens, diffs, diffs_of_after m _ rest after]
termination_by (sizeOf e, 0)

theorem factor_toTokens (e : Formula) (grouped : e.Grouped) (readable : e.Readable)
    (level : 3 ≤ e.level) (fuel : Nat) (enough : 8 * e.toTokens.length + 1 ≤ fuel)
    (rest : List Token) (after : After 2 rest) : factor fuel (e.toTokens ++ rest) = some (e, rest) := by
  obtain _ | n := fuel
  · omega
  by_cases atom : 5 ≤ e.level
  · have read := primary_toTokens e grouped readable atom n (by omega) rest (after.mono (by decide))
    exact factor_of_primary n e _ rest (toTokens_unsigned e atom rest) read after
  cases e with
  | signed s e =>
    simp only [toTokens, List.length_cons] at enough
    have read := factor_toTokens e grouped.2 readable.2 grouped.1 n (by omega) rest after
    obtain rfl | rfl := readable.1 <;> simp [toTokens, factor, read]
  | binary s l r =>
    obtain rfl : s = .power := by
      cases s <;> simp_all [Formula.level, FormulaSign.level]
    obtain ⟨left, right, groupedL, groupedR⟩ := grouped
    simp only [toTokens, List.length_append, List.length_cons] at enough
    have base := primary_toTokens l groupedL readable.1 left n (by omega)
      (.sign .power :: (r.toTokens ++ rest)) (by simp [After, FormulaSign.level])
    have exponent := factor_toTokens r groupedR readable.2 right n (by omega) rest after
    have read := factor_power n l r _ _ rest (toTokens_unsigned l left _) base exponent
    simpa [toTokens] using read
  | _ => simp [Formula.level] at atom
termination_by (sizeOf e, 1)

theorem product_toTokens (e : Formula) (grouped : e.Grouped) (readable : e.Readable)
    (level : 2 ≤ e.level) (fuel : Nat) (enough : 8 * e.toTokens.length + 2 ≤ fuel)
    (rest : List Token) (after : After 2 rest) :
    ∃ left, fuel ≤ left + e.toTokens.length ∧ product fuel (e.toTokens ++ rest) = productRest left e rest := by
  obtain _ | n := fuel
  · omega
  by_cases single : 3 ≤ e.level
  · have read := factor_toTokens e grouped readable single n (by omega) rest after
    refine ⟨n, ?_, by simp [product, read]⟩
    have := length_toTokens_pos e
    omega
  cases e with
  | binary s l r =>
    obtain ⟨left, right, groupedL, groupedR⟩ := grouped
    have operator : s = .times ∨ s = .over := by
      cases s <;> simp_all [Formula.level, FormulaSign.level]
    have levels : 2 ≤ l.level ∧ 3 ≤ r.level ∧ s.level = 2 := by
      obtain rfl | rfl := operator <;> exact ⟨left, right, rfl⟩
    simp only [toTokens, List.length_append, List.length_cons] at enough
    obtain ⟨m, spent, read⟩ := product_toTokens l groupedL readable.1 levels.1 (n + 1) (by omega)
      (.sign s :: (r.toTokens ++ rest)) (Nat.le_of_eq levels.2.2)
    obtain _ | k := m
    · omega
    have operand := factor_toTokens r groupedR readable.2 levels.2.1 k (by omega) rest after
    refine ⟨k, by simp only [toTokens, List.length_append, List.length_cons]; omega, ?_⟩
    simp only [toTokens, List.append_assoc, List.cons_append, read]
    obtain rfl | rfl := operator <;> simp [productRest, operand]
  | _ => simp [Formula.level] at single
termination_by (sizeOf e, 2)

theorem sum_toTokens_rest (e : Formula) (grouped : e.Grouped) (readable : e.Readable) (fuel : Nat)
    (enough : 8 * e.toTokens.length + 3 ≤ fuel) (rest : List Token) (after : After 1 rest) :
    ∃ left, fuel ≤ left + e.toTokens.length ∧ sum fuel (e.toTokens ++ rest) = sumRest left e rest := by
  obtain _ | n := fuel
  · omega
  by_cases single : 2 ≤ e.level
  · have read := product_complete e grouped readable single n (by omega) rest after
    refine ⟨n, ?_, by simp [sum, read]⟩
    have := length_toTokens_pos e
    omega
  cases e with
  | binary s l r =>
    obtain ⟨left, right, groupedL, groupedR⟩ := grouped
    have operator : s = .plus ∨ s = .minus := by
      cases s <;> simp_all [Formula.level, FormulaSign.level]
    have levels : 2 ≤ r.level ∧ s.level = 1 := by
      obtain rfl | rfl := operator <;> exact ⟨right, rfl⟩
    simp only [toTokens, List.length_append, List.length_cons] at enough
    obtain ⟨m, spent, read⟩ := sum_toTokens_rest l groupedL readable.1 (n + 1) (by omega)
      (.sign s :: (r.toTokens ++ rest)) (Nat.le_of_eq levels.2)
    obtain _ | k := m
    · omega
    have operand := product_complete r groupedR readable.2 levels.1 k (by omega) rest after
    refine ⟨k, by simp only [toTokens, List.length_append, List.length_cons]; omega, ?_⟩
    simp only [toTokens, List.append_assoc, List.cons_append, read]
    obtain rfl | rfl := operator <;> simp [sumRest, operand]
  | _ => simp [Formula.level] at single
termination_by (sizeOf e, 4)

theorem product_complete (e : Formula) (grouped : e.Grouped) (readable : e.Readable)
    (level : 2 ≤ e.level) (fuel : Nat) (enough : 8 * e.toTokens.length + 2 ≤ fuel)
    (rest : List Token) (after : After 1 rest) : product fuel (e.toTokens ++ rest) = some (e, rest) := by
  obtain ⟨m, spent, read⟩ := product_toTokens e grouped readable level fuel enough rest (after.mono (by decide))
  obtain _ | k := m
  · omega
  rw [read, productRest_of_after k e rest after]
termination_by (sizeOf e, 3)

theorem sum_toTokens (e : Formula) (grouped : e.Grouped) (readable : e.Readable) (fuel : Nat)
    (enough : 8 * e.toTokens.length + 3 ≤ fuel) (rest : List Token) (after : After 0 rest) :
    sum fuel (e.toTokens ++ rest) = some (e, rest) := by
  obtain ⟨m, spent, read⟩ := sum_toTokens_rest e grouped readable fuel enough rest (after.mono (by decide))
  obtain _ | k := m
  · omega
  rw [read, sumRest_of_after k e rest after]
termination_by (sizeOf e, 5)

theorem arguments_argumentTokens (es : List Formula) (grouped : AllGrouped es)
    (readable : AllReadable es) (fuel : Nat) (enough : 8 * (argumentTokens es).length ≤ fuel)
    (rest : List Token) : arguments fuel (argumentTokens es ++ rest) = some (es, rest) := by
  cases es with
  | nil =>
    obtain ⟨n, rfl⟩ : ∃ n, fuel = n + 1 := ⟨fuel - 1, by simp [argumentTokens] at enough; omega⟩
    simp [argumentTokens, arguments]
  | cons e es =>
    simp only [argumentTokens, List.length_append] at enough
    have shorter := length_furtherTokens_pos es
    obtain _ | n := fuel
    · omega
    have first := sum_toTokens e grouped.1 readable.1 n (by omega) (furtherTokens es ++ rest)
      (after_furtherTokens es rest)
    obtain ⟨t, ts, head, other⟩ := toTokens_head e
    have step : arguments (n + 1) (argumentTokens (e :: es) ++ rest) =
        (sum n (e.toTokens ++ (furtherTokens es ++ rest))).bind fun (e, ts) =>
          match ts with
          | .comma :: ts => (arguments n ts).bind fun (es, ts) => some (e :: es, ts)
          | .closing :: ts => some ([e], ts)
          | _ => none := by
      simp only [argumentTokens, List.append_assoc, head, List.cons_append]
      rw [arguments]
      · rfl
      · simpa using other
    rw [step, first]
    cases es with
    | nil => simp [furtherTokens]
    | cons d ds =>
      rw [furtherTokens_cons] at enough ⊢
      have others := arguments_argumentTokens (d :: ds) grouped.2 readable.2 n
        (by simp only [List.length_cons] at enough; omega) rest
      simp [others]
termination_by (sizeOf es, 0)

end

-- Tokens are read in one way only. So regrouping keeps just those formulas that are grouped.
theorem regroup_eq_self_iff (e : Formula) (readable : e.Readable) : e.regroup = e ↔ e.Grouped := by
  refine ⟨fun same => same ▸ grouped_regroup e, fun grouped => ?_⟩
  have own := sum_toTokens e grouped readable _ (Nat.le_refl _) [] trivial
  have other := sum_toTokens e.regroup (grouped_regroup e) (readable_regroup e readable) _ (Nat.le_refl _) [] trivial
  rw [toTokens_regroup, own] at other
  simpa using other.symm

theorem product_bracket (e : Formula) (grouped : e.Grouped) (readable : e.Readable) (fuel : Nat)
    (enough : 8 * e.toTokens.length + 6 ≤ fuel) (rest : List Token) (after : After 1 rest) :
    product fuel (.opening :: (e.toTokens ++ .closing :: rest)) = some (e, rest) := by
  obtain ⟨n, rfl⟩ : ∃ n, fuel = n + 4 := ⟨fuel - 4, by omega⟩
  have inside := sum_toTokens e grouped readable (n + 1) (by omega) (.closing :: rest) trivial
  have bracket : primary (n + 2) (.opening :: (e.toTokens ++ .closing :: rest)) = some (e, rest) := by
    simp [primary, inside, diffs_of_after n e rest (after.mono (by decide))]
  have read := factor_of_primary (n + 2) e _ rest (by simp) bracket (after.mono (by decide))
  simp [product, read, productRest_of_after (n + 2) e rest after]

theorem read_of_tokens (text : String) (e : Formula) (readable : e.Readable)
    (lexed : tokens text = some e.toTokens) : read? text = some e.regroup := by
  have read := sum_toTokens e.regroup (grouped_regroup e) (readable_regroup e readable)
    (8 * (e.toTokens.length + 1)) (by rw [toTokens_regroup]; omega) [] trivial
  rw [toTokens_regroup, List.append_nil] at read
  simp [read?, lexed, read]

theorem sum_difference (l r : Formula) (groupedL : l.Grouped) (readableL : l.Readable)
    (groupedR : r.Grouped) (readableR : r.Readable) (fuel : Nat)
    (enough : 8 * (l.toTokens.length + r.toTokens.length + 2) ≤ fuel) :
    sum fuel (l.toTokens ++ .sign .minus :: .opening :: (r.toTokens ++ [.closing])) =
      some (.binary .minus l r, []) := by
  obtain ⟨m, spent, read⟩ := sum_toTokens_rest l groupedL readableL fuel (by omega)
    (.sign .minus :: .opening :: (r.toTokens ++ [.closing])) (by simp [After, FormulaSign.level])
  obtain ⟨k, rfl⟩ : ∃ k, m = k + 2 := ⟨m - 2, by omega⟩
  have operand := product_bracket r groupedR readableR (k + 1) (by omega) [] trivial
  rw [read, sumRest]
  simp [operand, sumRest]

theorem read_of_difference (text : String) (l r : Formula) (left : l.Readable) (right : r.Readable)
    (lexed : tokens text = some (l.toTokens ++ .sign .minus :: .opening :: (r.toTokens ++ [.closing]))) :
    read? text = some (.binary .minus l.regroup r.regroup) := by
  let ts : List Token := l.toTokens ++ .sign .minus :: .opening :: (r.toTokens ++ [.closing])
  have enough : 8 * (l.toTokens.length + r.toTokens.length + 2) ≤ 8 * (ts.length + 1) := by
    simp only [ts, List.length_append, List.length_cons, List.length_nil]
    omega
  have read := sum_difference l.regroup r.regroup (grouped_regroup l) (readable_regroup l left)
    (grouped_regroup r) (readable_regroup r right) (8 * (ts.length + 1))
    (by rw [toTokens_regroup, toTokens_regroup]; exact enough)
  rw [toTokens_regroup, toTokens_regroup] at read
  rw [read?, lexed]
  simp only [Option.bind_eq_bind, Option.bind_some]
  rw [read]

def Cuts (ts : List Token) : Prop := ∀ t ∈ ts, t.Cut

theorem Cuts.tail {t : Token} {ts : List Token} (cuts : Cuts (t :: ts)) : Cuts ts :=
  fun u member => cuts u (List.mem_cons_of_mem t member)

-- What a rule found is good, and what it left was cut from a text.
def Finds {α : Type} (good : α → Prop) (found : Option (α × List Token)) : Prop :=
  ∀ a rest, found = some (a, rest) → good a ∧ Cuts rest

section

variable {α β : Type} {good : α → Prop} {fine : β → Prop}

theorem Finds.fails : Finds good none := fun _ _ found => by contradiction

theorem Finds.done {a : α} {ts : List Token} (ends : good a) (cuts : Cuts ts) : Finds good (some (a, ts)) := by
  rintro _ _ ⟨⟩
  exact ⟨ends, cuts⟩

theorem Finds.bind {x : Option (α × List Token)} {f : α × List Token → Option (β × List Token)}
    (first : Finds good x) (next : ∀ a us, good a → Cuts us → Finds fine (f (a, us))) : Finds fine (x >>= f) := by
  intro b rest found
  obtain ⟨⟨a, us⟩, read, more⟩ := Option.bind_eq_some_iff.1 found
  have ⟨ends, behind⟩ := first a us read
  exact next a us ends behind b rest more

end

structure Sound (fuel : Nat) : Prop where
  sum : ∀ ts, Cuts ts → Finds Readable (sum fuel ts)
  sumRest : ∀ e ts, e.Readable → Cuts ts → Finds Readable (sumRest fuel e ts)
  product : ∀ ts, Cuts ts → Finds Readable (product fuel ts)
  productRest : ∀ e ts, e.Readable → Cuts ts → Finds Readable (productRest fuel e ts)
  factor : ∀ ts, Cuts ts → Finds Readable (factor fuel ts)
  primary : ∀ ts, Cuts ts → Finds Readable (primary fuel ts)
  arguments : ∀ ts, Cuts ts → Finds AllReadable (arguments fuel ts)
  diffs : ∀ e ts, e.Readable → Cuts ts → Finds Readable (diffs fuel e ts)

theorem sound_zero : Sound 0 := by
  constructor <;> simp [Formula.sum, Formula.sumRest, Formula.product, Formula.productRest,
    Formula.factor, Formula.primary, Formula.arguments, Formula.diffs, Finds]

section

variable {fuel : Nat} (sound : Sound fuel) (e : Formula) (ts : List Token)
include sound

theorem Sound.sumRest_succ (readable : e.Readable) (cuts : Cuts ts) :
    Finds Readable (Formula.sumRest (fuel + 1) e ts) := by
  -- both signs are followed by a product, and the sum so far is its left operand
  have onward : ∀ s us, Cuts us → Finds Readable
      ((Formula.product fuel us).bind fun (r, us) => Formula.sumRest fuel (.binary s e r) us) :=
    fun s us cuts => (sound.product us cuts).bind fun _ vs right => sound.sumRest _ vs ⟨readable, right⟩
  unfold Formula.sumRest
  split
  · exact .fails
  · next same => cases same; exact onward .plus _ cuts.tail
  · next same => cases same; exact onward .minus _ cuts.tail
  · exact .done readable cuts

theorem Sound.productRest_succ (readable : e.Readable) (cuts : Cuts ts) :
    Finds Readable (Formula.productRest (fuel + 1) e ts) := by
  have onward : ∀ s us, Cuts us → Finds Readable
      ((Formula.factor fuel us).bind fun (r, us) => Formula.productRest fuel (.binary s e r) us) :=
    fun s us cuts => (sound.factor us cuts).bind fun _ vs right => sound.productRest _ vs ⟨readable, right⟩
  unfold Formula.productRest
  split
  · exact .fails
  · next same => cases same; exact onward .times _ cuts.tail
  · next same => cases same; exact onward .over _ cuts.tail
  · exact .done readable cuts

theorem Sound.factor_succ (cuts : Cuts ts) : Finds Readable (Formula.factor (fuel + 1) ts) := by
  unfold Formula.factor
  split
  · exact .fails
  · next same => cases same; exact (sound.factor _ cuts.tail).bind fun _ _ readable => .done ⟨.inl rfl, readable⟩
  · next same => cases same; exact (sound.factor _ cuts.tail).bind fun _ _ readable => .done ⟨.inr rfl, readable⟩
  · next same _ _ =>
    cases same
    refine (sound.primary _ cuts).bind fun base us readable behind => ?_
    dsimp only
    split
    · exact (sound.factor _ behind.tail).bind fun _ _ right => .done ⟨readable, right⟩
    · exact .done readable behind

theorem Sound.primary_succ (cuts : Cuts ts) : Finds Readable (Formula.primary (fuel + 1) ts) := by
  unfold Formula.primary
  split
  · exact .fails
  · exact .done (cuts _ List.mem_cons_self) cuts.tail
  · next same =>
    cases same
    split
    · exact .fails
    · next free =>
      exact (sound.arguments _ cuts.tail.tail).bind fun _ us readable => sound.diffs _ us
        ⟨⟨cuts _ List.mem_cons_self, by simpa using free⟩, readable⟩
  · next same =>
    cases same
    split
    · exact .fails
    · next free =>
      exact sound.diffs _ _ ⟨cuts _ List.mem_cons_self, by simpa using free⟩ cuts.tail
  · next same =>
    cases same
    refine (sound.sum _ cuts.tail).bind fun inside us readable behind => ?_
    dsimp only
    split
    · exact sound.diffs _ _ readable behind.tail
    · exact .fails
  · exact .fails

theorem Sound.arguments_succ (cuts : Cuts ts) : Finds AllReadable (Formula.arguments (fuel + 1) ts) := by
  unfold Formula.arguments
  split
  · exact .fails
  · exact .done trivial cuts.tail
  · next same _ =>
    cases same
    refine (sound.sum _ cuts).bind fun first us readable behind => ?_
    dsimp only
    split
    · exact (sound.arguments _ behind.tail).bind fun _ _ all => .done ⟨readable, all⟩
    · exact .done ⟨readable, trivial⟩ behind.tail
    · exact .fails

theorem Sound.diffs_succ (readable : e.Readable) (cuts : Cuts ts) : Finds Readable (Formula.diffs (fuel + 1) e ts) := by
  unfold Formula.diffs
  split
  · exact .fails
  · next same =>
    cases same
    exact sound.diffs _ _ readable cuts.tail.tail.tail.tail.tail.tail.tail
  · exact .fails
  · exact .done readable cuts

end

theorem sound (fuel : Nat) : Sound fuel := by
  induction fuel with
  | zero => exact sound_zero
  | succ fuel ih =>
    exact ⟨fun ts cuts => (ih.product ts cuts).bind ih.sumRest, ih.sumRest_succ,
      fun ts cuts => (ih.factor ts cuts).bind ih.productRest, ih.productRest_succ, ih.factor_succ,
      ih.primary_succ, ih.arguments_succ, ih.diffs_succ⟩

theorem readable_of_read (text : String) (e : Formula) (read : read? text = some e) : e.Readable := by
  obtain ⟨ts, lexed, read⟩ := Option.bind_eq_some_iff.1 read
  have cuts := cut_of_tokensFrom _ _ ts lexed
  split at read
  · next found =>
    cases read
    exact ((sound _).sum ts cuts e [] found).1
  · contradiction

end Modelica.Formula
