import OwnScript.Machine.Arithmetic
import OwnScript.Machine.Matching
import OwnScript.Proofs.Heap.Correspondence

/-!
What a program sees of values does not depend on the choice of references: types, texts, equality,
the results of operators and the values that matchers bind are the same in heaps that correspond.
-/

namespace OwnScript.Heap.Corresponds

variable {ρ : Renaming} {left right : Heap} {a b c d : Value}

theorem objectOf? (hcorr : Corresponds ρ left right) (hrel : Value.Related ρ a b) :
    Option.Rel (Object.Related ρ) (left.objectOf? a) (right.objectOf? b) := by
  cases hrel with
  | scalar value => exact .none
  | object h =>
    cases h with
    | none => exact .none
    | some hpair =>
      obtain ⟨first, second, hfirst, hsecond, hobjects⟩ := hcorr.objects _ _ hpair
      simp only [Heap.objectOf?, Value.ref?, Option.bind_some, hfirst, hsecond]
      exact .some hobjects

theorem typeName (hcorr : Corresponds ρ left right) (hrel : Value.Related ρ a b) :
    left.typeName a = right.typeName b := by
  have hobjects := hcorr.objectOf? hrel
  cases hrel with
  | scalar value => rfl
  | object h =>
    simp only [Heap.objectOf?, Value.ref?] at hobjects
    simp only [Heap.typeName]
    generalize Option.bind _ left.get? = first at hobjects ⊢
    generalize Option.bind _ right.get? = second at hobjects ⊢
    cases hobjects with
    | none => rfl
    | some hobject => cases hobject <;> rfl

theorem innerText (hcorr : Corresponds ρ left right) (hrel : Value.Related ρ a b) :
    left.innerText a = right.innerText b := by
  have hobjects := hcorr.objectOf? hrel
  cases hrel with
  | scalar value => rfl
  | object h =>
    simp only [Heap.innerText]
    generalize left.objectOf? _ = first at hobjects ⊢
    generalize right.objectOf? _ = second at hobjects ⊢
    cases hobjects with
    | none => rfl
    | some hobject => cases hobject <;> rfl

theorem text (hcorr : Corresponds ρ left right) (hrel : Value.Related ρ a b) :
    left.text a = right.text b := by
  have hobjects := hcorr.objectOf? hrel
  have hinner := hcorr.innerText hrel
  simp only [Heap.text]
  generalize left.objectOf? a = first at hobjects ⊢
  generalize right.objectOf? b = second at hobjects ⊢
  cases hobjects with
  | none => exact hinner
  | some hobject =>
    cases hobject with
    | string text => exact hinner
    | closure prototype h => exact hinner
    | record hcapacity h =>
      have hentries : ∀ {xs ys : List (String × Value)}, List.Forall₂ (FieldRelated ρ) xs ys →
          xs.map (fun field => s!"{field.1}: {left.innerText field.2}") =
            ys.map (fun field => s!"{field.1}: {right.innerText field.2}") := by
        intro xs ys hfields
        induction hfields with
        | nil => rfl
        | cons hfield _ ih => rw [List.map_cons, List.map_cons, ih, hfield.1, hcorr.innerText hfield.2]
      simp only [hentries h]
    | array hcapacity h =>
      have helements : ∀ {xs ys : List Value}, List.Forall₂ (Value.Related ρ) xs ys →
          xs.map left.innerText = ys.map right.innerText := by
        intro xs ys hvalues
        induction hvalues with
        | nil => rfl
        | cons hvalue _ ih => rw [List.map_cons, List.map_cons, ih, hcorr.innerText hvalue]
      simp only [helements h]

theorem equals (hcorr : Corresponds ρ left right) (hab : Value.Related ρ a b)
    (hcd : Value.Related ρ c d) : left.equals a c = right.equals b d := by
  have hfirst := hcorr.objectOf? hab
  have hsecond := hcorr.objectOf? hcd
  cases hab with
  | scalar value =>
    cases hcd with
    | scalar other => rfl
    | object h => rfl
  | @object first second hrefs =>
    cases hcd with
    | scalar other => rfl
    | @object third fourth hothers =>
      have hidentity : (first == third) = (second == fourth) := by
        rw [Bool.eq_iff_iff, beq_iff_eq, beq_iff_eq]
        cases hrefs with
        | none => cases hothers <;> simp
        | some hpair =>
          cases hothers with
          | none => simp
          | some hother =>
            rw [Option.some.injEq, Option.some.injEq]
            exact hcorr.eq_iff_of_object hother hpair
      simp only [Heap.objectOf?, Value.ref?] at hfirst hsecond
      simp only [Heap.equals, hidentity]
      congr 1
      generalize Option.bind first left.get? = w at hfirst ⊢
      generalize Option.bind second right.get? = x at hfirst ⊢
      generalize Option.bind third left.get? = y at hsecond ⊢
      generalize Option.bind fourth right.get? = z at hsecond ⊢
      cases hfirst with
      | none => rfl
      | some hobject =>
        cases hsecond with
        | none => cases hobject <;> rfl
        | some hother => cases hobject <;> cases hother <;> rfl

theorem numberPair? (hab : Value.Related ρ a b) (hcd : Value.Related ρ c d) :
    OwnScript.numberPair? a c = OwnScript.numberPair? b d := by
  cases hab with
  | scalar value =>
    cases hcd with
    | scalar other => rfl
    | object h => cases value <;> rfl
  | object h => cases hcd <;> rfl

theorem operandError (hcorr : Corresponds ρ left right) (op : Opcode) (wanted : String)
    (hab : Value.Related ρ a b) (hcd : Value.Related ρ c d) :
    left.operandError op wanted a c = right.operandError op wanted b d := by
  simp only [Heap.operandError, hcorr.typeName hab, hcorr.typeName hcd]

/-- The result of an operator in two heaps: the same scalar or the same complaint. -/
def SameScalar (first second : Except Diagnostic Value) : Prop :=
  ∃ result : Except Diagnostic Scalar, first = result.map .scalar ∧ second = result.map .scalar

private theorem sameScalar_map_int (result : Except Diagnostic Int64) :
    SameScalar (result.map fun i => .scalar (.int i)) (result.map fun i => .scalar (.int i)) := by
  cases result with
  | error diagnostic => exact ⟨.error diagnostic, rfl, rfl⟩
  | ok i => exact ⟨.ok (.int i), rfl, rfl⟩

theorem arithmetic (hcorr : Corresponds ρ left right) (op : Opcode) (hab : Value.Related ρ a b)
    (hcd : Value.Related ρ c d) : SameScalar (left.arithmetic op a c) (right.arithmetic op b d) := by
  simp only [Heap.arithmetic, numberPair? hab hcd, hcorr.operandError op "numbers" hab hcd]
  cases OwnScript.numberPair? b d with
  | none => exact ⟨.error _, rfl, rfl⟩
  | some pair =>
    cases pair with
    | integers x y => exact sameScalar_map_int (op.integerResult x y)
    | floats x y => exact ⟨.ok (.float (op.floatResult x y)), rfl, rfl⟩

theorem bitwise (hcorr : Corresponds ρ left right) (op : Opcode) (hab : Value.Related ρ a b)
    (hcd : Value.Related ρ c d) : SameScalar (left.bitwise op a c) (right.bitwise op b d) := by
  have herror := hcorr.operandError op "integers" hab hcd
  have hrefused (first second : Diagnostic) (h : first = second) :
      SameScalar (.error first) (.error second) := ⟨.error first, rfl, by rw [h]; rfl⟩
  cases hab with
  | object h => cases hcd <;> exact hrefused _ _ herror
  | scalar x =>
    cases hcd with
    | object h => cases x <;> exact hrefused _ _ herror
    | scalar y =>
      cases x with
      | int i =>
        cases y with
        | int j => exact sameScalar_map_int (op.bitResult i j)
        | nil => exact hrefused _ _ herror
        | bool value => exact hrefused _ _ herror
        | float value => exact hrefused _ _ herror
      | nil => exact hrefused _ _ herror
      | bool value => exact hrefused _ _ herror
      | float value => exact hrefused _ _ herror

theorem comparison (hcorr : Corresponds ρ left right) (op : Opcode) (hab : Value.Related ρ a b)
    (hcd : Value.Related ρ c d) : SameScalar (left.comparison op a c) (right.comparison op b d) := by
  simp only [Heap.comparison, numberPair? hab hcd, hcorr.operandError op "numbers" hab hcd]
  cases OwnScript.numberPair? b d with
  | none => exact ⟨.error _, rfl, rfl⟩
  | some pair =>
    cases pair with
    | integers x y => exact ⟨.ok (.bool (op.integerOrder x y)), rfl, rfl⟩
    | floats x y => exact ⟨.ok (.bool (op.floatOrder x y)), rfl, rfl⟩

theorem negate (hcorr : Corresponds ρ left right) (hab : Value.Related ρ a b) :
    SameScalar (left.negate a) (right.negate b) := by
  have htype := hcorr.typeName hab
  cases hab with
  | object h => exact ⟨.error _, rfl, by simp only [Heap.negate, htype]; rfl⟩
  | scalar value =>
    cases value with
    | int i => exact ⟨.ok (.int (0 - i)), rfl, rfl⟩
    | float f => exact ⟨.ok (.float (-f)), rfl, rfl⟩
    | nil => exact ⟨.error _, rfl, rfl⟩
    | bool value => exact ⟨.error _, rfl, rfl⟩

theorem complement (hcorr : Corresponds ρ left right) (hab : Value.Related ρ a b) :
    SameScalar (left.complement a) (right.complement b) := by
  have htype := hcorr.typeName hab
  cases hab with
  | object h => exact ⟨.error _, rfl, by simp only [Heap.complement, htype]; rfl⟩
  | scalar value =>
    cases value with
    | int i => exact ⟨.ok (.int (~~~i)), rfl, rfl⟩
    | float f => exact ⟨.error _, rfl, rfl⟩
    | nil => exact ⟨.error _, rfl, rfl⟩
    | bool value => exact ⟨.error _, rfl, rfl⟩

theorem find? {first second : Fields} (name : String)
    (hfields : List.Forall₂ (FieldRelated ρ) first.entries second.entries) :
    Option.Rel (Value.Related ρ) (first.find? name) (second.find? name) := by
  have hentries : ∀ {xs ys : List (String × Value)}, List.Forall₂ (FieldRelated ρ) xs ys →
      Option.Rel (Value.Related ρ) ((xs.find? (fun entry => entry.1 == name)).map (·.2))
        ((ys.find? (fun entry => entry.1 == name)).map (·.2)) := by
    intro xs ys h
    induction h with
    | nil => exact .none
    | @cons entry other _ _ hfield _ ih =>
      by_cases hname : other.1 = name
      · simpa [hfield.1, hname] using Option.Rel.some hfield.2
      · simpa [hfield.1, hname] using ih
  exact hentries hfields

mutual

/-- A matcher binds the same values, up to the renaming. -/
theorem matchValue (hcorr : Corresponds ρ left right) (matcher : Matcher) {a b : Value}
    (hab : Value.Related ρ a b) :
    Option.Rel (List.Forall₂ (Value.Related ρ)) (left.matchValue matcher a)
      (right.matchValue matcher b) := by
  have hobjects := hcorr.objectOf? hab
  cases matcher with
  | node test fields =>
    cases test with
    | wildcard => exact .some .nil
    | binding => exact .some (.cons hab .nil)
    | literal scalar =>
      simp only [Heap.matchValue, hcorr.equals hab (.scalar scalar)]
      split
      · exact .some .nil
      · exact .none
    | text text =>
      simp only [Heap.matchValue]
      generalize left.objectOf? a = first at hobjects ⊢
      generalize right.objectOf? b = second at hobjects ⊢
      cases hobjects with
      | none => exact .none
      | some hobject =>
        cases hobject with
        | string found =>
          simp only
          split
          · exact .some .nil
          · exact .none
        | record hcapacity h => exact .none
        | array hcapacity h => exact .none
        | closure prototype h => exact .none
    | destructure =>
      simp only [Heap.matchValue]
      generalize left.objectOf? a = first at hobjects ⊢
      generalize right.objectOf? b = second at hobjects ⊢
      cases hobjects with
      | none => exact .none
      | some hobject =>
        cases hobject with
        | record hcapacity h => exact hcorr.matchFields fields h
        | string found => exact .none
        | array hcapacity h => exact .none
        | closure prototype h => exact .none

theorem matchFields (hcorr : Corresponds ρ left right) (fields : List (String × Matcher))
    {first second : Fields} (hfields : List.Forall₂ (FieldRelated ρ) first.entries second.entries) :
    Option.Rel (List.Forall₂ (Value.Related ρ)) (left.matchFields fields first)
      (right.matchFields fields second) := by
  cases fields with
  | nil => exact .some .nil
  | cons field rest =>
    obtain ⟨name, matcher⟩ := field
    have hfound := find? name hfields
    simp only [Heap.matchFields]
    generalize first.find? name = x at hfound ⊢
    generalize second.find? name = y at hfound ⊢
    cases hfound with
    | none => exact .none
    | @some v w hvalue =>
      have hbound := hcorr.matchValue matcher hvalue
      have hrest := hcorr.matchFields rest hfields
      simp only
      generalize left.matchValue matcher v = p at hbound ⊢
      generalize right.matchValue matcher w = q at hbound ⊢
      generalize left.matchFields rest first = r at hrest ⊢
      generalize right.matchFields rest second = t at hrest ⊢
      cases hbound with
      | none => exact .none
      | some hvalues =>
        cases hrest with
        | none => exact .none
        | some hothers => exact .some (List.rel_append hvalues hothers)

end

end OwnScript.Heap.Corresponds
