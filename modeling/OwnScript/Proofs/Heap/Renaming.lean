import OwnScript.Proofs.Heap.Sweep

/-!
Values and objects that agree up to the choice of references. A renaming pairs references of one
heap with references of another: those that values hold, and those of the cells of captured
variables. Objects agree when they have the same shape and texts and their references are paired.
-/

namespace OwnScript

/-- Which references of two heaps stand for each other: objects that values refer to, and cells of
captured variables. -/
structure Renaming where
  object : Ref → Ref → Prop
  cell : Ref → Ref → Prop

namespace Renaming

instance : LE Renaming where
  le first second := (∀ a b, first.object a b → second.object a b) ∧
    ∀ a b, first.cell a b → second.cell a b

variable {ρ σ τ : Renaming}

theorem le_refl (ρ : Renaming) : ρ ≤ ρ := ⟨fun _ _ h => h, fun _ _ h => h⟩

/-- The renaming read from right to left. -/
def swap (ρ : Renaming) : Renaming :=
  ⟨fun a b => ρ.object b a, fun a b => ρ.cell b a⟩

/-- The renaming with one more pair of objects. -/
def withObject (ρ : Renaming) (left right : Ref) : Renaming :=
  { ρ with object := fun a b => ρ.object a b ∨ a = left ∧ b = right }

/-- The renaming with one more pair of cells. -/
def withCell (ρ : Renaming) (left right : Ref) : Renaming :=
  { ρ with cell := fun a b => ρ.cell a b ∨ a = left ∧ b = right }

/-- The pairs that are kept on both sides. -/
def keeping (ρ : Renaming) (left right : Ref → Prop) : Renaming :=
  ⟨fun a b => ρ.object a b ∧ left a ∧ right b, fun a b => ρ.cell a b ∧ left a ∧ right b⟩

/-- The references on the left that have a partner. -/
def Mentions (ρ : Renaming) (ref : Ref) : Prop :=
  (∃ other, ρ.object ref other) ∨ ∃ other, ρ.cell ref other

/-- More cells are paired, the objects are as before. -/
structure CellsGrow (ρ σ : Renaming) : Prop where
  object : σ.object = ρ.object
  cell : ∀ a b, ρ.cell a b → σ.cell a b

theorem CellsGrow.le (hgrow : ρ.CellsGrow σ) : ρ ≤ σ :=
  ⟨fun a b h => by rw [hgrow.object]; exact h, hgrow.cell⟩

theorem CellsGrow.trans (hfirst : ρ.CellsGrow σ) (hsecond : σ.CellsGrow τ) : ρ.CellsGrow τ :=
  ⟨hsecond.object.trans hfirst.object, fun a b h => hsecond.cell a b (hfirst.cell a b h)⟩

theorem CellsGrow.swap (hgrow : ρ.CellsGrow σ) : ρ.swap.CellsGrow σ.swap :=
  ⟨by rw [Renaming.swap, Renaming.swap, hgrow.object], fun a b h => hgrow.cell b a h⟩

theorem le_withObject (ρ : Renaming) (left right : Ref) : ρ ≤ ρ.withObject left right :=
  ⟨fun _ _ h => Or.inl h, fun _ _ h => h⟩

theorem le_withCell (ρ : Renaming) (left right : Ref) : ρ ≤ ρ.withCell left right :=
  ⟨fun _ _ h => h, fun _ _ h => Or.inl h⟩

end Renaming

variable {ρ σ : Renaming}

/-- Values that agree up to a renaming. -/
inductive Value.Related (ρ : Renaming) : Value → Value → Prop where
  | scalar (value : Scalar) : Related ρ (.scalar value) (.scalar value)
  | object {left right : Option Ref} : Option.Rel ρ.object left right →
      Related ρ (.object left) (.object right)

/-- Cells that agree up to a renaming. -/
inductive Upvalue.Related (ρ : Renaming) : Upvalue → Upvalue → Prop where
  | opened (slot : Nat) : Related ρ (.opened slot) (.opened slot)
  | closed {left right : Value} : Value.Related ρ left right → Related ρ (.closed left) (.closed right)

/-- Captured variables that agree up to a renaming. Both are there. -/
inductive CaptureRelated (ρ : Renaming) : Option Ref → Option Ref → Prop where
  | some {left right : Ref} : ρ.cell left right → CaptureRelated ρ (some left) (some right)

/-- Fields that agree up to a renaming. -/
def FieldRelated (ρ : Renaming) (left right : String × Value) : Prop :=
  left.1 = right.1 ∧ Value.Related ρ left.2 right.2

/-- Objects that agree up to a renaming. Cells are apart: no value refers to one. A closure takes
part once all of its variables are captured. -/
inductive Object.Related (ρ : Renaming) : Object → Object → Prop where
  | string (text : String) : Related ρ (.string text) (.string text)
  | record {left right : Fields} : left.capacity = right.capacity →
      List.Forall₂ (FieldRelated ρ) left.entries right.entries → Related ρ (.record left) (.record right)
  | array {left right : Elements} : left.capacity = right.capacity →
      List.Forall₂ (Value.Related ρ) left.values.toList right.values.toList →
        Related ρ (.array left) (.array right)
  | closure (prototype : Option Prototype) {left right : Array (Option Ref)} :
      List.Forall₂ (CaptureRelated ρ) left.toList right.toList →
        Related ρ (.closure prototype left) (.closure prototype right)

theorem relImp {α β : Type} {r s : α → β → Prop} {left : Option α} {right : Option β}
    (hrel : Option.Rel r left right) (himp : ∀ a b, r a b → s a b) : Option.Rel s left right := by
  cases hrel with
  | some h => exact .some (himp _ _ h)
  | none => exact .none

theorem relFlip {α β : Type} {r : α → β → Prop} {left : Option α} {right : Option β}
    (hrel : Option.Rel r left right) : Option.Rel (fun b a => r a b) right left := by
  cases hrel with
  | some h => exact .some h
  | none => exact .none

theorem Value.Related.mono {left right : Value} (hrel : Value.Related ρ left right) (hle : ρ ≤ σ) :
    Value.Related σ left right := by
  cases hrel with
  | scalar value => exact .scalar value
  | object h => exact .object (relImp h hle.1)

theorem Value.Related.swap {left right : Value} (hrel : Value.Related ρ left right) :
    Value.Related ρ.swap right left := by
  cases hrel with
  | scalar value => exact .scalar value
  | object h => exact .object (relFlip h)

@[simp] theorem Value.related_nil (ρ : Renaming) : Value.Related ρ .nil .nil := .scalar _

@[simp] theorem Value.related_ofBool (ρ : Renaming) (value : Bool) :
    Value.Related ρ (.ofBool value) (.ofBool value) := .scalar _

theorem Value.related_ofRef {left right : Ref} (h : ρ.object left right) :
    Value.Related ρ (.ofRef left) (.ofRef right) := .object (.some h)

theorem Upvalue.Related.mono {left right : Upvalue} (hrel : Upvalue.Related ρ left right)
    (hle : ρ ≤ σ) : Upvalue.Related σ left right := by
  cases hrel with
  | opened slot => exact .opened slot
  | closed h => exact .closed (h.mono hle)

theorem Upvalue.Related.swap {left right : Upvalue} (hrel : Upvalue.Related ρ left right) :
    Upvalue.Related ρ.swap right left := by
  cases hrel with
  | opened slot => exact .opened slot
  | closed h => exact .closed h.swap

theorem CaptureRelated.mono {left right : Option Ref} (hrel : CaptureRelated ρ left right)
    (hle : ρ ≤ σ) : CaptureRelated σ left right := by
  cases hrel with
  | some h => exact .some (hle.2 _ _ h)

theorem CaptureRelated.swap {left right : Option Ref} (hrel : CaptureRelated ρ left right) :
    CaptureRelated ρ.swap right left := by
  cases hrel with
  | some h => exact .some h

theorem FieldRelated.mono {left right : String × Value} (hrel : FieldRelated ρ left right)
    (hle : ρ ≤ σ) : FieldRelated σ left right := ⟨hrel.1, hrel.2.mono hle⟩

theorem Object.Related.mono {left right : Object} (hrel : Object.Related ρ left right)
    (hle : ρ ≤ σ) : Object.Related σ left right := by
  cases hrel with
  | string text => exact .string text
  | record hcapacity h => exact .record hcapacity (h.imp fun _ _ h => h.mono hle)
  | array hcapacity h => exact .array hcapacity (h.imp fun _ _ h => h.mono hle)
  | closure prototype h => exact .closure prototype (h.imp fun _ _ h => h.mono hle)

theorem Object.Related.swap {left right : Object} (hrel : Object.Related ρ left right) :
    Object.Related ρ.swap right left := by
  cases hrel with
  | string text => exact .string text
  | record hcapacity h =>
    exact .record hcapacity.symm ((h.imp fun _ _ h => ⟨h.1.symm, h.2.swap⟩).flip)
  | array hcapacity h => exact .array hcapacity.symm ((h.imp fun _ _ h => h.swap).flip)
  | closure prototype h => exact .closure prototype ((h.imp fun _ _ h => h.swap).flip)

theorem names_eq {left right : List (String × Value)} (hrel : List.Forall₂ (FieldRelated ρ) left right) :
    left.map (·.1) = right.map (·.1) := by
  induction hrel with
  | nil => rfl
  | cons hfield _ ih => simp [hfield.1, ih]

/-- Objects that agree occupy the same number of bytes. -/
theorem Object.Related.memorySize {left right : Object} (hrel : Object.Related ρ left right) :
    left.memorySize = right.memorySize := by
  cases hrel with
  | string text => rfl
  | record hcapacity h =>
    simp [Object.memorySize, Object.blockSize, Object.contentSize, hcapacity, names_eq h]
  | array hcapacity h => simp [Object.memorySize, Object.blockSize, Object.contentSize, hcapacity]
  | closure prototype h =>
    have hlength := h.length_eq
    simp only [Array.length_toList] at hlength
    simp [Object.memorySize, Object.blockSize, Object.contentSize, hlength]

theorem Value.Related.mentions {left right : Value} (hrel : Value.Related ρ left right) {ref : Ref}
    (href : left.ref? = some ref) : ∃ other, right.ref? = some other ∧ ρ.object ref other := by
  cases hrel with
  | scalar value => simp [Value.ref?] at href
  | object h =>
    cases h with
    | some hpair =>
      simp only [Value.ref?, Option.some.injEq] at href
      exact ⟨_, rfl, href ▸ hpair⟩
    | none => simp [Value.ref?] at href

theorem exists_related_of_mem {α β : Type} {r : α → β → Prop} {left : List α} {right : List β}
    (hrel : List.Forall₂ r left right) {a : α} (hmem : a ∈ left) : ∃ b ∈ right, r a b := by
  induction hrel with
  | nil => simp at hmem
  | cons hfirst _ ih =>
    rcases List.mem_cons.mp hmem with rfl | hrest
    · exact ⟨_, List.mem_cons_self .., hfirst⟩
    · obtain ⟨b, hb, hab⟩ := ih hrest
      exact ⟨b, List.mem_cons_of_mem _ hb, hab⟩

/-- The references inside objects that agree are paired. -/
theorem Object.Related.references {left right : Object} (hrel : Object.Related ρ left right)
    {ref : Ref} (href : ref ∈ left.references) :
    ∃ other ∈ right.references, ρ.object ref other ∨ ρ.cell ref other := by
  cases hrel with
  | string text => simp [Object.references] at href
  | record hcapacity h =>
    obtain ⟨entry, hentry, hfound⟩ := List.mem_filterMap.mp href
    obtain ⟨partner, hpartner, hfield⟩ := exists_related_of_mem h hentry
    obtain ⟨other, hother, hpair⟩ := hfield.2.mentions hfound
    exact ⟨other, List.mem_filterMap.mpr ⟨partner, hpartner, hother⟩, .inl hpair⟩
  | array hcapacity h =>
    obtain ⟨value, hvalue, hfound⟩ := List.mem_filterMap.mp href
    obtain ⟨partner, hpartner, hvalues⟩ := exists_related_of_mem h hvalue
    obtain ⟨other, hother, hpair⟩ := hvalues.mentions hfound
    exact ⟨other, List.mem_filterMap.mpr ⟨partner, hpartner, hother⟩, .inl hpair⟩
  | closure prototype h =>
    obtain ⟨capture, hcapture, hfound⟩ := List.mem_filterMap.mp href
    obtain ⟨partner, hpartner, hcells⟩ := exists_related_of_mem h hcapture
    cases hcells with
    | some hpair =>
      simp only [id, Option.some.injEq] at hfound
      exact ⟨_, List.mem_filterMap.mpr ⟨_, hpartner, rfl⟩, .inr (hfound ▸ hpair)⟩

theorem Upvalue.Related.references {left right : Upvalue} (hrel : Upvalue.Related ρ left right)
    {ref : Ref} (href : ref ∈ (Object.upvalue left).references) :
    ∃ other ∈ (Object.upvalue right).references, ρ.object ref other := by
  cases hrel with
  | opened slot => simp [Object.references] at href
  | closed h =>
    simp only [Object.references, Option.mem_toList] at href
    obtain ⟨other, hother, hpair⟩ := h.mentions href
    exact ⟨other, by simpa [Object.references] using hother, hpair⟩

variable {left right : Ref → Prop}

theorem Value.Related.keeping {a b : Value} (hrel : Value.Related ρ a b)
    (hleft : ∀ ref, a.ref? = some ref → left ref) (hright : ∀ ref, b.ref? = some ref → right ref) :
    Value.Related (ρ.keeping left right) a b := by
  cases hrel with
  | scalar value => exact .scalar value
  | object h =>
    cases h with
    | some hpair => exact .object (.some ⟨hpair, hleft _ rfl, hright _ rfl⟩)
    | none => exact .object .none

theorem Upvalue.Related.keeping {a b : Upvalue} (hrel : Upvalue.Related ρ a b)
    (hleft : ∀ ref ∈ (Object.upvalue a).references, left ref)
    (hright : ∀ ref ∈ (Object.upvalue b).references, right ref) :
    Upvalue.Related (ρ.keeping left right) a b := by
  cases hrel with
  | opened slot => exact .opened slot
  | closed h =>
    exact .closed (h.keeping (fun ref href => hleft ref (by simp [Object.references, href]))
      (fun ref href => hright ref (by simp [Object.references, href])))

/-- What a list of references inside an object keeps, it keeps for each entry. -/
theorem forall₂_keeping {α : Type} {r s : α → α → Prop} {first second : List α} {read : α → Option Ref}
    (hrel : List.Forall₂ r first second)
    (hleft : ∀ ref ∈ first.filterMap read, left ref) (hright : ∀ ref ∈ second.filterMap read, right ref)
    (hkeep : ∀ a b, r a b → (∀ ref, read a = some ref → left ref) →
      (∀ ref, read b = some ref → right ref) → s a b) : List.Forall₂ s first second := by
  induction hrel with
  | nil => exact .nil
  | cons hfirst _ ih =>
    refine .cons (hkeep _ _ hfirst (fun ref href => ?_) (fun ref href => ?_))
      (ih (fun ref href => ?_) (fun ref href => ?_))
    · exact hleft ref (List.mem_filterMap.mpr ⟨_, List.mem_cons_self .., href⟩)
    · exact hright ref (List.mem_filterMap.mpr ⟨_, List.mem_cons_self .., href⟩)
    · obtain ⟨a, ha, hread⟩ := List.mem_filterMap.mp href
      exact hleft ref (List.mem_filterMap.mpr ⟨a, List.mem_cons_of_mem _ ha, hread⟩)
    · obtain ⟨a, ha, hread⟩ := List.mem_filterMap.mp href
      exact hright ref (List.mem_filterMap.mpr ⟨a, List.mem_cons_of_mem _ ha, hread⟩)

/-- Objects that agree still do when only the pairs among their own references are kept. -/
theorem Object.Related.keeping {a b : Object} (hrel : Object.Related ρ a b)
    (hleft : ∀ ref ∈ a.references, left ref) (hright : ∀ ref ∈ b.references, right ref) :
    Object.Related (ρ.keeping left right) a b := by
  cases hrel with
  | string text => exact .string text
  | record hcapacity h =>
    exact .record hcapacity (forall₂_keeping h hleft hright
      fun _ _ hfield ha hb => ⟨hfield.1, hfield.2.keeping ha hb⟩)
  | array hcapacity h =>
    exact .array hcapacity (forall₂_keeping h hleft hright fun _ _ hvalue ha hb => hvalue.keeping ha hb)
  | closure prototype h =>
    refine .closure prototype (forall₂_keeping h hleft hright fun _ _ hcell ha hb => ?_)
    cases hcell with
    | some hpair => exact .some ⟨hpair, ha _ rfl, hb _ rfl⟩

theorem Object.Related.not_upvalue {left right : Object} (hrel : Object.Related ρ left right)
    (state : Upvalue) : left ≠ .upvalue state := by
  cases hrel <;> simp

end OwnScript
