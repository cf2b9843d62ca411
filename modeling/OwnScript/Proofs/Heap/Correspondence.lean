import OwnScript.Proofs.Heap.Renaming
import OwnScript.Proofs.Heap.Soundness

/-!
Heaps that correspond under a renaming: paired references lead to objects that agree. Objects that
no pair mentions are garbage or under construction, and each heap may have its own, so that the
relation survives a collection on both sides and an allocation on one.
-/

namespace OwnScript.Heap

/-- Two heaps that agree on everything a renaming pairs. -/
structure Corresponds (ρ : Renaming) (left right : Heap) : Prop where
  objects : ∀ a b, ρ.object a b → ∃ first second, left.get? a = some first ∧
    right.get? b = some second ∧ Object.Related ρ first second
  cells : ∀ a b, ρ.cell a b → ∃ first second, left.get? a = some (.upvalue first) ∧
    right.get? b = some (.upvalue second) ∧ Upvalue.Related ρ first second
  objectUnique : Relator.BiUnique ρ.object
  cellUnique : Relator.BiUnique ρ.cell
  leftSound : left.Sound
  rightSound : right.Sound
  limit : left.config.maxHeapBytes = right.config.maxHeapBytes

/-- Heaps correspond as long as nothing in them is compared. -/
theorem corresponds_unpaired {left right : Heap} (hleft : left.Sound) (hright : right.Sound)
    (hlimit : left.config.maxHeapBytes = right.config.maxHeapBytes) :
    Corresponds ⟨fun _ _ => False, fun _ _ => False⟩ left right where
  objects _ _ h := h.elim
  cells _ _ h := h.elim
  objectUnique := ⟨fun _ _ _ h => h.elim, fun _ _ _ h => h.elim⟩
  cellUnique := ⟨fun _ _ _ h => h.elim, fun _ _ _ h => h.elim⟩
  leftSound := hleft
  rightSound := hright
  limit := hlimit

namespace Corresponds

variable {ρ : Renaming} {left right : Heap}

theorem swap (hcorr : Corresponds ρ left right) : Corresponds ρ.swap right left where
  objects a b hpair := by
    obtain ⟨first, second, hfirst, hsecond, hrel⟩ := hcorr.objects b a hpair
    exact ⟨second, first, hsecond, hfirst, hrel.swap⟩
  cells a b hpair := by
    obtain ⟨first, second, hfirst, hsecond, hrel⟩ := hcorr.cells b a hpair
    exact ⟨second, first, hsecond, hfirst, hrel.swap⟩
  objectUnique := ⟨fun _ _ _ h h' => hcorr.objectUnique.2 h h', fun _ _ _ h h' => hcorr.objectUnique.1 h h'⟩
  cellUnique := ⟨fun _ _ _ h h' => hcorr.cellUnique.2 h h', fun _ _ _ h h' => hcorr.cellUnique.1 h h'⟩
  leftSound := hcorr.rightSound
  rightSound := hcorr.leftSound
  limit := hcorr.limit.symm

theorem mem_refs_of_mentions (hcorr : Corresponds ρ left right) {ref : Ref} (href : ρ.Mentions ref) :
    ref ∈ left.refs := by
  rcases href with ⟨other, hpair⟩ | ⟨other, hpair⟩
  · obtain ⟨first, _, hfirst, _, _⟩ := hcorr.objects ref other hpair
    exact mem_refs.mpr ⟨first, hfirst⟩
  · obtain ⟨first, _, hfirst, _, _⟩ := hcorr.cells ref other hpair
    exact mem_refs.mpr ⟨_, hfirst⟩

theorem references_object (hcorr : Corresponds ρ left right) {first second : Object}
    (hrel : Object.Related ρ first second) : ∀ ref ∈ first.references, ref ∈ left.refs := by
  intro ref href
  obtain ⟨other, _, hobject | hcell⟩ := hrel.references href
  · exact hcorr.mem_refs_of_mentions (.inl ⟨other, hobject⟩)
  · exact hcorr.mem_refs_of_mentions (.inr ⟨other, hcell⟩)

theorem references_upvalue (hcorr : Corresponds ρ left right) {first second : Upvalue}
    (hrel : Upvalue.Related ρ first second) :
    ∀ ref ∈ (Object.upvalue first).references, ref ∈ left.refs := by
  intro ref href
  obtain ⟨other, _, hpair⟩ := hrel.references href
  exact hcorr.mem_refs_of_mentions (.inl ⟨other, hpair⟩)

/-- What happens to objects without a partner does not matter. -/
theorem of_left (hcorr : Corresponds ρ left right) {other : Heap}
    (hget : ∀ ref, ρ.Mentions ref → other.get? ref = left.get? ref) (hsound : other.Sound)
    (hlimit : other.config.maxHeapBytes = left.config.maxHeapBytes) : Corresponds ρ other right where
  objects a b hpair := by
    rw [hget a (.inl ⟨b, hpair⟩)]
    exact hcorr.objects a b hpair
  cells a b hpair := by
    rw [hget a (.inr ⟨b, hpair⟩)]
    exact hcorr.cells a b hpair
  objectUnique := hcorr.objectUnique
  cellUnique := hcorr.cellUnique
  leftSound := hsound
  rightSound := hcorr.rightSound
  limit := hlimit.trans hcorr.limit

theorem alike_left (hcorr : Corresponds ρ left right) {other : Heap} (halike : Alike left other) :
    Corresponds ρ other right :=
  hcorr.of_left (fun ref _ => halike.get? ref) (hcorr.leftSound.of_alike halike) (by rw [halike.config])

theorem alike (hcorr : Corresponds ρ left right) {left' right' : Heap} (hleft : Alike left left')
    (hright : Alike right right') : Corresponds ρ left' right' :=
  ((hcorr.alike_left hleft).swap.alike_left hright).swap

theorem ne_nextRef (hcorr : Corresponds ρ left right) {ref : Ref} (href : ρ.Mentions ref) :
    ref ≠ left.nextRef := by
  obtain ⟨object, hobject⟩ := mem_refs.mp (hcorr.mem_refs_of_mentions href)
  exact Nat.ne_of_lt (hcorr.leftSound.bounded ref object hobject)

/-- A new object on the left that nothing refers to yet. -/
theorem link_left (hcorr : Corresponds ρ left right) {object : Object}
    (hrefs : ∀ target ∈ object.references, target ∈ left.refs) :
    Corresponds ρ (left.link object) right := by
  refine hcorr.of_left (fun ref href => ?_) (hcorr.leftSound.link hrefs) rfl
  rw [get?_link, if_neg (hcorr.ne_nextRef href)]

private theorem biUnique_insert {r : Ref → Ref → Prop} (hunique : Relator.BiUnique r) {a b : Ref}
    (hfirst : ∀ other, ¬ r a other) (hsecond : ∀ other, ¬ r other b) :
    Relator.BiUnique fun c d => r c d ∨ c = a ∧ d = b := by
  refine ⟨fun c d e hleft hright => ?_, fun c d e hleft hright => ?_⟩
  · rcases hleft with hleft | ⟨hc, he⟩ <;> rcases hright with hright | ⟨hd, he'⟩
    · exact hunique.1 hleft hright
    · exact absurd (he' ▸ hleft) (hsecond c)
    · exact absurd (he ▸ hright) (hsecond d)
    · exact hc.trans hd.symm
  · rcases hleft with hleft | ⟨hc, hd⟩ <;> rcases hright with hright | ⟨hc', he⟩
    · exact hunique.2 hleft hright
    · exact absurd (hc' ▸ hleft) (hfirst d)
    · exact absurd (hc ▸ hright) (hfirst e)
    · exact hd.trans he.symm

/-- Two objects without partners that agree become partners. -/
theorem pair_objects (hcorr : Corresponds ρ left right) {a b : Ref} {first second : Object}
    (hleft : left.get? a = some first) (hright : right.get? b = some second)
    (hrel : Object.Related ρ first second) (hfirst : ∀ other, ¬ ρ.object a other)
    (hsecond : ∀ other, ¬ ρ.object other b) : Corresponds (ρ.withObject a b) left right where
  objects c d hpair := by
    rcases hpair with hpair | ⟨rfl, rfl⟩
    · obtain ⟨x, y, hx, hy, hxy⟩ := hcorr.objects c d hpair
      exact ⟨x, y, hx, hy, hxy.mono (ρ.le_withObject a b)⟩
    · exact ⟨first, second, hleft, hright, hrel.mono (ρ.le_withObject c d)⟩
  cells c d hpair := by
    obtain ⟨x, y, hx, hy, hxy⟩ := hcorr.cells c d hpair
    exact ⟨x, y, hx, hy, hxy.mono (ρ.le_withObject a b)⟩
  objectUnique := biUnique_insert hcorr.objectUnique hfirst hsecond
  cellUnique := hcorr.cellUnique
  leftSound := hcorr.leftSound
  rightSound := hcorr.rightSound
  limit := hcorr.limit

/-- Two cells without partners that agree become partners. -/
theorem pair_cells (hcorr : Corresponds ρ left right) {a b : Ref} {first second : Upvalue}
    (hleft : left.get? a = some (.upvalue first)) (hright : right.get? b = some (.upvalue second))
    (hrel : Upvalue.Related ρ first second) (hfirst : ∀ other, ¬ ρ.cell a other)
    (hsecond : ∀ other, ¬ ρ.cell other b) : Corresponds (ρ.withCell a b) left right where
  objects c d hpair := by
    obtain ⟨x, y, hx, hy, hxy⟩ := hcorr.objects c d hpair
    exact ⟨x, y, hx, hy, hxy.mono (ρ.le_withCell a b)⟩
  cells c d hpair := by
    rcases hpair with hpair | ⟨rfl, rfl⟩
    · obtain ⟨x, y, hx, hy, hxy⟩ := hcorr.cells c d hpair
      exact ⟨x, y, hx, hy, hxy.mono (ρ.le_withCell a b)⟩
    · exact ⟨first, second, hleft, hright, hrel.mono (ρ.le_withCell c d)⟩
  objectUnique := hcorr.objectUnique
  cellUnique := biUnique_insert hcorr.cellUnique hfirst hsecond
  leftSound := hcorr.leftSound
  rightSound := hcorr.rightSound
  limit := hcorr.limit

theorem ne_of_object_cell (hcorr : Corresponds ρ left right) {a b c d : Ref} (hobject : ρ.object a b)
    (hcell : ρ.cell c d) : c ≠ a ∧ d ≠ b := by
  obtain ⟨first, second, hfirst, hsecond, hrel⟩ := hcorr.objects a b hobject
  obtain ⟨third, fourth, hthird, hfourth, -⟩ := hcorr.cells c d hcell
  refine ⟨fun h => ?_, fun h => ?_⟩
  · rw [h, hfirst, Option.some.injEq] at hthird
    exact hrel.not_upvalue third hthird
  · rw [h, hsecond, Option.some.injEq] at hfourth
    exact hrel.swap.not_upvalue fourth hfourth

theorem eq_iff_of_object (hcorr : Corresponds ρ left right) {a b c d : Ref} (hfirst : ρ.object a b)
    (hsecond : ρ.object c d) : c = a ↔ d = b :=
  ⟨fun h => hcorr.objectUnique.2 (h ▸ hsecond) hfirst, fun h => hcorr.objectUnique.1 (h ▸ hsecond) hfirst⟩

theorem eq_iff_of_cell (hcorr : Corresponds ρ left right) {a b c d : Ref} (hfirst : ρ.cell a b)
    (hsecond : ρ.cell c d) : c = a ↔ d = b :=
  ⟨fun h => hcorr.cellUnique.2 (h ▸ hsecond) hfirst, fun h => hcorr.cellUnique.1 (h ▸ hsecond) hfirst⟩

/-- Partners are replaced by objects that agree. -/
private theorem replace_objects (hcorr : Corresponds ρ left right) {a b : Ref} (hpair : ρ.object a b)
    {first second : Object} (hrel : Object.Related ρ first second) {left' right' : Heap}
    (hleft : ∀ ref, left'.get? ref =
      if ref = a then (left.get? ref).map (fun _ => first) else left.get? ref)
    (hright : ∀ ref, right'.get? ref =
      if ref = b then (right.get? ref).map (fun _ => second) else right.get? ref)
    (hleftSound : left'.Sound) (hrightSound : right'.Sound)
    (hlimit : left'.config.maxHeapBytes = right'.config.maxHeapBytes) :
    Corresponds ρ left' right' where
  objects c d hother := by
    obtain ⟨x, y, hx, hy, hxy⟩ := hcorr.objects c d hother
    have hsame := hcorr.eq_iff_of_object hpair hother
    by_cases hc : c = a
    · have hd := hsame.mp hc
      subst hc hd
      exact ⟨first, second, by simp [hleft, hx], by simp [hright, hy], hrel⟩
    · exact ⟨x, y, by simp [hleft, hc, hx], by simp [hright, mt hsame.mpr hc, hy], hxy⟩
  cells c d hother := by
    obtain ⟨x, y, hx, hy, hxy⟩ := hcorr.cells c d hother
    obtain ⟨hc, hd⟩ := hcorr.ne_of_object_cell hpair hother
    exact ⟨x, y, by simp [hleft, hc, hx], by simp [hright, hd, hy], hxy⟩
  objectUnique := hcorr.objectUnique
  cellUnique := hcorr.cellUnique
  leftSound := hleftSound
  rightSound := hrightSound
  limit := hlimit

/-- Partners grow or shrink together. -/
theorem store_objects (hcorr : Corresponds ρ left right) {a b : Ref} (hpair : ρ.object a b)
    {first second : Object} (hrel : Object.Related ρ first second) :
    Corresponds ρ (left.store a first) (right.store b second) := by
  obtain ⟨x, y, hx, hy, -⟩ := hcorr.objects a b hpair
  have hconfig (heap : Heap) (ref : Ref) (object : Object) :
      (heap.store ref object).config = heap.config := by
    unfold store recordSize
    split
    · rfl
    · split <;> rfl
  refine hcorr.replace_objects hpair hrel (get?_store left a first) (get?_store right b second)
    (hcorr.leftSound.store hx (hcorr.references_object hrel))
    (hcorr.rightSound.store hy (hcorr.swap.references_object hrel.swap)) ?_
  rw [hconfig, hconfig]
  exact hcorr.limit

/-- Partners are replaced by objects of the same size. -/
theorem update_objects (hcorr : Corresponds ρ left right) {a b : Ref} (hpair : ρ.object a b)
    {first second old : Object} (hrel : Object.Related ρ first second) (hold : left.get? a = some old)
    (hsize : first.memorySize = old.memorySize) :
    Corresponds ρ (left.update a first) (right.update b second) := by
  obtain ⟨x, y, hx, hy, hxy⟩ := hcorr.objects a b hpair
  obtain rfl : old = x := Option.some.inj (hold.symm.trans hx)
  have hsizes : second.memorySize = y.memorySize := by
    rw [← hrel.memorySize, ← hxy.memorySize, hsize]
  exact hcorr.replace_objects hpair hrel (get?_update left a first) (get?_update right b second)
    (hcorr.leftSound.update hx hsize (hcorr.references_object hrel))
    (hcorr.rightSound.update hy hsizes (hcorr.swap.references_object hrel.swap)) hcorr.limit

/-- A cell and its partner change together. -/
theorem update_cells (hcorr : Corresponds ρ left right) {a b : Ref} (hpair : ρ.cell a b)
    {first second : Upvalue} (hrel : Upvalue.Related ρ first second) :
    Corresponds ρ (left.update a (.upvalue first)) (right.update b (.upvalue second)) where
  objects c d hother := by
    obtain ⟨x, y, hx, hy, hxy⟩ := hcorr.objects c d hother
    obtain ⟨ha, hb⟩ := hcorr.ne_of_object_cell hother hpair
    exact ⟨x, y, by rw [get?_update_of_ne ha.symm, hx], by rw [get?_update_of_ne hb.symm, hy], hxy⟩
  cells c d hother := by
    obtain ⟨x, y, hx, hy, hxy⟩ := hcorr.cells c d hother
    have hsame := hcorr.eq_iff_of_cell hpair hother
    by_cases hc : c = a
    · have hd := hsame.mp hc
      subst hc hd
      exact ⟨first, second, by simp [get?_update, hx], by simp [get?_update, hy], hrel⟩
    · have hd := mt hsame.mpr hc
      exact ⟨x, y, by rw [get?_update_of_ne hc, hx], by rw [get?_update_of_ne hd, hy], hxy⟩
  objectUnique := hcorr.objectUnique
  cellUnique := hcorr.cellUnique
  leftSound := by
    obtain ⟨x, _, hx, _, _⟩ := hcorr.cells a b hpair
    exact hcorr.leftSound.update hx rfl (hcorr.references_upvalue hrel)
  rightSound := by
    obtain ⟨_, y, _, hy, _⟩ := hcorr.cells a b hpair
    exact hcorr.rightSound.update hy rfl (hcorr.swap.references_upvalue hrel.swap)
  limit := hcorr.limit

/-- New objects that agree are partners from the start. -/
theorem link_objects (hcorr : Corresponds ρ left right) {first second : Object}
    (hrel : Object.Related ρ first second) :
    Corresponds (ρ.withObject left.nextRef right.nextRef) (left.link first) (right.link second) := by
  have hlinked := ((hcorr.link_left (hcorr.references_object hrel)).swap.link_left
    (hcorr.swap.references_object hrel.swap)).swap
  refine hlinked.pair_objects (a := left.nextRef) (b := right.nextRef) (by simp [get?_link])
    (by simp [get?_link]) hrel (fun other hpair => ?_) (fun other hpair => ?_)
  · exact hcorr.ne_nextRef (.inl ⟨other, hpair⟩) rfl
  · exact hcorr.swap.ne_nextRef (.inl ⟨other, hpair⟩) rfl

/-- An object that no pair mentions is replaced. -/
theorem update_left (hcorr : Corresponds ρ left right) {a : Ref} {old new : Object}
    (hold : left.get? a = some old) (hfree : ¬ ρ.Mentions a) (hsize : new.memorySize = old.memorySize)
    (hrefs : ∀ ref ∈ new.references, ref ∈ left.refs) : Corresponds ρ (left.update a new) right := by
  refine hcorr.of_left (fun ref href => ?_) (hcorr.leftSound.update hold hsize hrefs) rfl
  exact get?_update_of_ne fun h => hfree (h ▸ href)

/-- Two objects under construction are finished and become partners. -/
theorem publish (hcorr : Corresponds ρ left right) {a b : Ref} {oldLeft oldRight first second : Object}
    (hleft : left.get? a = some oldLeft) (hright : right.get? b = some oldRight)
    (hleftFree : ¬ ρ.Mentions a) (hrightFree : ¬ ρ.swap.Mentions b)
    (hleftSize : first.memorySize = oldLeft.memorySize)
    (hrightSize : second.memorySize = oldRight.memorySize) (hrel : Object.Related ρ first second) :
    Corresponds (ρ.withObject a b) (left.update a first) (right.update b second) := by
  have hfirst := hcorr.update_left hleft hleftFree hleftSize (hcorr.references_object hrel)
  have hboth := (hfirst.swap.update_left hright hrightFree hrightSize
    (hcorr.swap.references_object hrel.swap)).swap
  refine hboth.pair_objects (by simp [get?_update, hleft]) (by simp [get?_update, hright]) hrel
    (fun other hpair => hleftFree (.inl ⟨other, hpair⟩))
    (fun other hpair => hrightFree (.inl ⟨other, hpair⟩))

/-- A collection keeps the pairs that its roots lead to. -/
theorem collect_left (hcorr : Corresponds ρ left right) (roots : List Value) :
    Corresponds (ρ.keeping (left.Reachable roots) fun _ => True) (left.collect roots).1 right where
  objects a b hpair := by
    obtain ⟨hpair, ha, -⟩ := hpair
    obtain ⟨first, second, hfirst, hsecond, hrel⟩ := hcorr.objects a b hpair
    refine ⟨first, second, ?_, hsecond, hrel.keeping (fun ref href => .step ha hfirst href)
      (fun _ _ => trivial)⟩
    rw [(collect_spec hcorr.leftSound.idle roots).reached a ha, hfirst]
  cells a b hpair := by
    obtain ⟨hpair, ha, -⟩ := hpair
    obtain ⟨first, second, hfirst, hsecond, hrel⟩ := hcorr.cells a b hpair
    refine ⟨first, second, ?_, hsecond, hrel.keeping (fun ref href => .step ha hfirst href)
      (fun _ _ => trivial)⟩
    rw [(collect_spec hcorr.leftSound.idle roots).reached a ha, hfirst]
  objectUnique := ⟨fun _ _ _ h h' => hcorr.objectUnique.1 h.1 h'.1,
    fun _ _ _ h h' => hcorr.objectUnique.2 h.1 h'.1⟩
  cellUnique := ⟨fun _ _ _ h h' => hcorr.cellUnique.1 h.1 h'.1,
    fun _ _ _ h h' => hcorr.cellUnique.2 h.1 h'.1⟩
  leftSound := hcorr.leftSound.collect roots
  rightSound := hcorr.rightSound
  limit := by
    rw [(collect_spec hcorr.leftSound.idle roots).config]
    exact hcorr.limit

end Corresponds

end OwnScript.Heap
