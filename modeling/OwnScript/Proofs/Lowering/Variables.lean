import OwnScript.Proofs.Lowering.Layout

/-!
The variables of functions under construction. Slots count from the outside in, inner scopes come first,
and a function that captures a variable of the one around it leaves a mark there. Code generation inside
a function may mark variables of the functions around it, and changes nothing else about them.
-/

namespace OwnScript

/-- A variable under construction as finished code knows it. -/
def Local.var (var : Local) : FrameVar :=
  ⟨var.binding, var.captured⟩

/-- Variables under construction as finished code knows them. -/
def scopeOf (locals : List Local) : FrameScope :=
  locals.map Local.var

@[simp] theorem length_scopeOf (locals : List Local) : (scopeOf locals).length = locals.length :=
  List.length_map ..

@[simp] theorem scopeOf_append (inner outer : List Local) :
    scopeOf (inner ++ outer) = scopeOf inner ++ scopeOf outer :=
  List.map_append ..

/-- Each variable has the slot behind those outside of it. -/
def Stacked : List Local → Prop
  | [] => True
  | var :: rest => var.slot = rest.length ∧ Stacked rest

theorem FunctionCode.nextSlot_eq {function : FunctionCode} (hslots : Stacked function.locals) :
    function.nextSlot = function.locals.length := by
  unfold nextSlot
  cases hlocals : function.locals with
  | nil => rfl
  | cons var rest =>
    rw [hlocals] at hslots
    simp [hslots.1]

theorem FunctionCode.slotOf?_eq {function : FunctionCode} (hslots : Stacked function.locals)
    (id : BindingId) : function.slotOf? id = (scopeOf function.locals).slotOf? id := by
  unfold slotOf?
  generalize function.locals = locals at hslots ⊢
  induction locals with
  | nil => rfl
  | cons var rest ih =>
    simp only [List.find?_cons, scopeOf, List.map_cons, FrameScope.slotOf?, Local.var]
    cases var.binding == some id with
    | true => simp [hslots.1]
    | false => exact ih hslots.2

theorem FrameScope.slotOf?_lt {scope : FrameScope} {id : BindingId} {slot : Nat}
    (hslot : scope.slotOf? id = some slot) : slot < scope.length := by
  induction scope with
  | nil => cases hslot
  | cons var rest ih =>
    simp only [slotOf?] at hslot
    split at hslot
    · cases hslot
      simp
    · have := ih hslot
      simp only [List.length_cons]
      omega

theorem Stacked.held {locals : List Local} (hslots : Stacked locals) {var : Local} (hvar : var ∈ locals)
    (hcaptured : var.captured = true) : (scopeOf locals).Held var.slot := by
  induction locals with
  | nil => cases hvar
  | cons first rest ih =>
    rcases List.mem_cons.mp hvar with rfl | hrest
    · exact .inl ⟨by simp [hslots.1], hcaptured⟩
    · exact .inr (ih hslots.2 hrest)

theorem Stacked.slot_lt {locals : List Local} (hslots : Stacked locals) {var : Local} (hvar : var ∈ locals) :
    var.slot < locals.length := by
  induction locals with
  | nil => cases hvar
  | cons first rest ih =>
    rcases List.mem_cons.mp hvar with rfl | hrest
    · exact Nat.lt_of_le_of_lt (Nat.le_of_eq hslots.1) (Nat.lt_succ_self _)
    · exact (ih hslots.2 hrest).trans (Nat.lt_succ_self _)

/-- A variable is the only one in its slot. -/
theorem Stacked.eq_of_slot {locals : List Local} (hslots : Stacked locals) {first second : Local}
    (hfirst : first ∈ locals) (hsecond : second ∈ locals) (hslot : first.slot = second.slot) : first = second := by
  induction locals with
  | nil => cases hfirst
  | cons var rest ih =>
    rcases List.mem_cons.mp hfirst with rfl | hinside
    · rcases List.mem_cons.mp hsecond with rfl | hother
      · rfl
      · have hlow := hslots.2.slot_lt hother
        rw [← hslot, hslots.1] at hlow
        exact absurd hlow (lt_irrefl _)
    · rcases List.mem_cons.mp hsecond with rfl | hother
      · have hlow := hslots.2.slot_lt hinside
        rw [hslot, hslots.1] at hlow
        exact absurd hlow (lt_irrefl _)
      · exact ih hslots.2 hinside hother

theorem Stacked.of_append {inner outer : List Local} (hslots : Stacked (inner ++ outer)) :
    Stacked outer ∧ ∀ var ∈ inner, outer.length ≤ var.slot := by
  induction inner with
  | nil => exact ⟨hslots, fun _ h => by cases h⟩
  | cons first rest ih =>
    obtain ⟨houter, hinner⟩ := ih hslots.2
    refine ⟨houter, fun var hvar => ?_⟩
    rcases List.mem_cons.mp hvar with rfl | hrest
    · have hslot : var.slot = (rest ++ outer).length := hslots.1
      rw [hslot, List.length_append]
      exact Nat.le_add_left ..
    · exact hinner var hrest

/-- Variables in a row are those whose slots are. -/
theorem Stacked.filter_slots {inner middle outer : List Local} (hslots : Stacked (inner ++ (middle ++ outer))) :
    (inner ++ (middle ++ outer)).filter
      (fun var => outer.length ≤ var.slot && var.slot < outer.length + middle.length) = middle := by
  obtain ⟨hrest, hinner⟩ := hslots.of_append
  obtain ⟨houter, hmiddle⟩ := hrest.of_append
  rw [List.filter_append, List.filter_append, List.filter_eq_nil_iff.mpr, List.filter_eq_self.mpr,
    List.filter_eq_nil_iff.mpr, List.append_nil, List.nil_append]
  · intro var hvar
    have := houter.slot_lt hvar
    simp only [Bool.and_eq_true, decide_eq_true_eq]
    omega
  · intro var hvar
    have hlow := hmiddle var hvar
    have hhigh := hrest.slot_lt (List.mem_append_left _ hvar)
    rw [List.length_append] at hhigh
    simp only [Bool.and_eq_true, decide_eq_true_eq]
    omega
  · intro var hvar
    have hlow := hinner var hvar
    rw [List.length_append] at hlow
    simp only [Bool.and_eq_true, decide_eq_true_eq]
    omega

/-- A variable under construction later on: a function inside may have captured it by its name. -/
structure Local.Later (before after : Local) : Prop where
  binding : after.binding = before.binding
  slot : after.slot = before.slot
  depth : after.depth = before.depth
  captured : before.captured = true → after.captured = true
  unnamed : before.binding = none → after.captured = before.captured

theorem Local.Later.refl (var : Local) : var.Later var :=
  ⟨rfl, rfl, rfl, id, fun _ => rfl⟩

theorem Local.Later.trans {first second third : Local} (hfirst : first.Later second)
    (hsecond : second.Later third) : first.Later third :=
  ⟨hsecond.binding.trans hfirst.binding, hsecond.slot.trans hfirst.slot,
    hsecond.depth.trans hfirst.depth, fun h => hsecond.captured (hfirst.captured h),
    fun h => (hsecond.unnamed (hfirst.binding.trans h)).trans (hfirst.unnamed h)⟩

/-- The same variables under construction later on. -/
abbrev LocalsLater (before after : List Local) : Prop :=
  List.Forall₂ Local.Later before after

theorem LocalsLater.refl (locals : List Local) : LocalsLater locals locals :=
  List.forall₂_same.mpr fun var _ => .refl var

theorem LocalsLater.trans {first second third : List Local} (hfirst : LocalsLater first second)
    (hsecond : LocalsLater second third) : LocalsLater first third := by
  induction hfirst generalizing third with
  | nil => exact hsecond
  | cons hvar _ ih =>
    cases hsecond with
    | cons hnext hrest => exact .cons (hvar.trans hnext) (ih hrest)

theorem LocalsLater.length_eq {before after : List Local} (hlater : LocalsLater before after) :
    after.length = before.length :=
  (List.Forall₂.length_eq hlater).symm

theorem LocalsLater.stacked {before after : List Local} (hlater : LocalsLater before after)
    (hslots : Stacked before) : Stacked after := by
  induction hlater with
  | nil => trivial
  | cons hvar hrest ih => exact ⟨by rw [hvar.slot, hslots.1, LocalsLater.length_eq hrest], ih hslots.2⟩

theorem LocalsLater.scope {before after : List Local} (hlater : LocalsLater before after) :
    FrameScope.Later (scopeOf before) (scopeOf after) := by
  refine List.forall₂_map_left_iff.mpr (List.forall₂_map_right_iff.mpr ?_)
  exact hlater.imp fun _ _ h => ⟨h.binding, h.captured, h.unnamed⟩

/-- Each variable in the list has its counterpart before. -/
theorem LocalsLater.mem {before after : List Local} (hlater : LocalsLater before after) {var : Local}
    (hvar : var ∈ after) : ∃ old ∈ before, old.Later var := by
  induction hlater with
  | nil => cases hvar
  | cons hfirst _ ih =>
    rcases List.mem_cons.mp hvar with rfl | hrest
    · exact ⟨_, List.mem_cons_self .., hfirst⟩
    · obtain ⟨old, hold, h⟩ := ih hrest
      exact ⟨old, List.mem_cons_of_mem _ hold, h⟩

theorem LocalsLater.split {inner outer after : List Local} (hlater : LocalsLater (inner ++ outer) after) :
    ∃ first second, after = first ++ second ∧ LocalsLater inner first ∧ LocalsLater outer second := by
  induction inner generalizing after with
  | nil => exact ⟨[], after, rfl, .nil, hlater⟩
  | cons var rest ih =>
    cases hlater with
    | cons hvar hrest =>
      obtain ⟨first, second, rfl, hfirst, hsecond⟩ := ih hrest
      exact ⟨_ :: first, second, rfl, .cons hvar hfirst, hsecond⟩

namespace FunctionCode

/-- A function under construction while code is generated for a function inside it. Marks stay, and if slots are
in order, only variables with a name get new ones. -/
structure Suspended (before after : FunctionCode) : Prop where
  chunk : after.chunk = before.chunk
  loops : after.loops = before.loops
  depth : after.depth = before.depth
  marks : ∀ var ∈ before.locals, var.captured = true →
    ∃ new ∈ after.locals, new.slot = var.slot ∧ new.captured = true
  locals : Stacked before.locals → LocalsLater before.locals after.locals

theorem Suspended.refl (function : FunctionCode) : function.Suspended function :=
  ⟨rfl, rfl, rfl, fun var hvar hcaptured => ⟨var, hvar, rfl, hcaptured⟩, fun _ => .refl _⟩

theorem Suspended.trans {first second third : FunctionCode} (hfirst : first.Suspended second)
    (hsecond : second.Suspended third) : first.Suspended third := by
  refine ⟨hsecond.chunk.trans hfirst.chunk, hsecond.loops.trans hfirst.loops, hsecond.depth.trans hfirst.depth,
    fun var hvar hcaptured => ?_, fun hslots => ?_⟩
  · obtain ⟨middle, hmiddle, hslot, hmarked⟩ := hfirst.marks var hvar hcaptured
    obtain ⟨new, hnew, hsame, hstill⟩ := hsecond.marks middle hmiddle hmarked
    exact ⟨new, hnew, hsame.trans hslot, hstill⟩
  · exact (hfirst.locals hslots).trans (hsecond.locals ((hfirst.locals hslots).stacked hslots))

theorem suspended_capture {function : FunctionCode} {id : BindingId} {slot : Nat}
    (hslot : function.slotOf? id = some slot) : function.Suspended (function.capture slot) := by
  obtain ⟨owner, hfound, rfl⟩ := Option.map_eq_some_iff.mp hslot
  have howner : owner.binding = some id := by simpa using List.find?_some hfound
  refine ⟨rfl, rfl, rfl, fun var hvar hcaptured => ?_, fun hslots => List.forall₂_map_right_iff.mpr
    (List.forall₂_same.mpr fun var hvar => ?_)⟩
  · refine ⟨_, List.mem_map_of_mem hvar, ?_⟩
    split
    · exact ⟨rfl, rfl⟩
    · exact ⟨rfl, hcaptured⟩
  · split
    · rename_i hsame
      obtain rfl := hslots.eq_of_slot hvar (List.mem_of_find?_eq_some hfound) (by simpa using hsame)
      refine ⟨rfl, rfl, rfl, fun _ => rfl, fun hnone => ?_⟩
      rw [howner] at hnone
      cases hnone
    · exact .refl var

theorem suspended_addCapture {function after : FunctionCode} {capture : Capture} {index : Nat}
    (hadded : function.addCapture capture = .ok (index, after)) : function.Suspended after := by
  unfold addCapture at hadded
  split at hadded
  · cases hadded
    exact .refl _
  · split at hadded
    · cases hadded
    · cases hadded
      exact ⟨rfl, rfl, rfl, fun var hvar hcaptured => ⟨var, hvar, rfl, hcaptured⟩, fun _ => .refl _⟩

theorem locals_addCapture {function after : FunctionCode} {capture : Capture} {index : Nat}
    (hadded : function.addCapture capture = .ok (index, after)) : after.locals = function.locals := by
  unfold addCapture at hadded
  split at hadded
  · cases hadded
    rfl
  · split at hadded
    · cases hadded
    · cases hadded
      rfl

theorem mem_captures_addCapture {function after : FunctionCode} {capture other : Capture} {index : Nat}
    (hadded : function.addCapture capture = .ok (index, after)) (hother : other ∈ after.captures) :
    other ∈ function.captures ∨ other = capture := by
  unfold addCapture at hadded
  split at hadded
  · cases hadded
    exact .inl hother
  · split at hadded
    · cases hadded
    · cases hadded
      exact Array.mem_push.mp hother

/-- What a function captures from the frame around it is marked there. -/
def CapturesFrom (inner outer : FunctionCode) : Prop :=
  ∀ capture ∈ inner.captures, capture.isLocal = true →
    ∃ var ∈ outer.locals, var.slot = capture.index ∧ var.captured = true

theorem CapturesFrom.later {inner outer after : FunctionCode} (hcaptures : inner.CapturesFrom outer)
    (hsuspended : outer.Suspended after) : inner.CapturesFrom after := by
  intro capture hcapture hlocal
  obtain ⟨var, hvar, hslot, hmarked⟩ := hcaptures capture hcapture hlocal
  obtain ⟨new, hnew, hsame, hstill⟩ := hsuspended.marks var hvar hmarked
  exact ⟨new, hnew, hsame.trans hslot, hstill⟩

/-- Functions from the inside out, each with its captures marked in the next. -/
def Linked : FunctionCode → List FunctionCode → Prop
  | _, [] => True
  | inner, outer :: rest => inner.CapturesFrom outer ∧ Linked outer rest

theorem Linked.of_captures {inner other : FunctionCode} {outer : List FunctionCode}
    (hlinked : Linked inner outer) (hcaptures : other.captures = inner.captures) :
    Linked other outer := by
  cases outer with
  | nil => trivial
  | cons outer rest =>
    refine ⟨fun capture hcapture => hlinked.1 capture ?_, hlinked.2⟩
    rwa [← hcaptures]

theorem marked_capture {function : FunctionCode} {id : BindingId} {slot : Nat}
    (hslot : function.slotOf? id = some slot) :
    ∃ var ∈ (function.capture slot).locals, var.slot = slot ∧ var.captured = true := by
  obtain ⟨var, hfound, rfl⟩ := Option.map_eq_some_iff.mp hslot
  refine ⟨{ var with captured := true }, ?_, rfl, rfl⟩
  refine List.mem_map.mpr ⟨var, List.mem_of_find?_eq_some hfound, ?_⟩
  simp

/-- Capturing a variable from further out marks it where it lives and links the functions in between. -/
theorem resolveCapture_spec {id : BindingId} {inner after : FunctionCode}
    {outer outerAfter : List FunctionCode} {index : Nat}
    (hresolved : resolveCapture id inner outer = .ok (some (index, after, outerAfter))) :
    inner.Suspended after ∧ after.locals = inner.locals ∧ List.Forall₂ Suspended outer outerAfter ∧
      (Linked inner outer → Linked after outerAfter) := by
  induction outer generalizing inner after outerAfter index with
  | nil => cases hresolved
  | cons outer rest ih =>
    unfold resolveCapture at hresolved
    cases hslot : outer.slotOf? id with
    | some slot =>
      rw [hslot] at hresolved
      dsimp only at hresolved
      cases hadded : inner.addCapture ⟨slot, true⟩ with
      | error fault =>
        rw [hadded] at hresolved
        cases hresolved
      | ok added =>
        obtain ⟨place, inner'⟩ := added
        rw [hadded] at hresolved
        cases hresolved
        have hmarked := suspended_capture hslot
        refine ⟨suspended_addCapture hadded, locals_addCapture hadded,
          .cons hmarked (List.forall₂_same.mpr fun f _ => .refl f), ?_⟩
        intro hlinked
        refine ⟨fun capture hcapture hlocal => ?_, hlinked.2.of_captures rfl⟩
        rcases mem_captures_addCapture hadded hcapture with hold | rfl
        · exact (hlinked.1.later hmarked) capture hold hlocal
        · exact marked_capture hslot
    | none =>
      rw [hslot] at hresolved
      dsimp only at hresolved
      cases hfurther : resolveCapture id outer rest with
      | error fault =>
        rw [hfurther] at hresolved
        cases hresolved
      | ok found =>
        rw [hfurther] at hresolved
        cases found with
        | none => cases hresolved
        | some found =>
          obtain ⟨place, outer', rest'⟩ := found
          obtain ⟨houter, -, hrest, hlink⟩ := ih hfurther
          change (inner.addCapture ⟨place, false⟩ >>= fun x => pure (some (x.1, x.2, outer' :: rest')))
            = _ at hresolved
          cases hadded : inner.addCapture ⟨place, false⟩ with
          | error fault =>
            rw [hadded] at hresolved
            cases hresolved
          | ok added =>
            obtain ⟨place', inner'⟩ := added
            rw [hadded] at hresolved
            cases hresolved
            refine ⟨suspended_addCapture hadded, locals_addCapture hadded, .cons houter hrest,
              fun hlinked => ?_⟩
            refine ⟨fun capture hcapture hlocal => ?_, hlink hlinked.2⟩
            rcases mem_captures_addCapture hadded hcapture with hold | rfl
            · exact (hlinked.1.later houter) capture hold hlocal
            · cases hlocal

/-- The variables of a function under construction are in order. -/
structure Tidy (function : FunctionCode) : Prop where
  slots : Stacked function.locals
  nested : function.locals.Pairwise fun inner outer => outer.depth ≤ inner.depth
  shallow : ∀ var ∈ function.locals, var.depth ≤ function.depth
  few : function.locals.length ≤ OwnScript.maxLocals

theorem Tidy.later {before after : FunctionCode} (htidy : before.Tidy) (hdepth : after.depth = before.depth)
    (hlater : LocalsLater before.locals after.locals) : after.Tidy := by
  refine ⟨hlater.stacked htidy.slots, ?_, ?_, ?_⟩
  · have hnested := htidy.nested
    generalize before.locals = old at hnested hlater
    generalize after.locals = new at hlater
    induction hlater with
    | nil => exact .nil
    | @cons old new restOld restNew hvar hrest ih =>
      refine .cons (fun outer houter => ?_) (ih hnested.of_cons)
      obtain ⟨oldOuter, hold, h⟩ := LocalsLater.mem hrest houter
      rw [h.depth, hvar.depth]
      exact List.rel_of_pairwise_cons hnested hold
  · intro var hvar
    obtain ⟨old, hold, h⟩ := hlater.mem hvar
    rw [h.depth, hdepth]
    exact htidy.shallow old hold
  · rw [hlater.length_eq]
    exact htidy.few

end FunctionCode

namespace Emitter

/-- The variables of the function under construction as finished code knows them. -/
def scope (emitter : Emitter) : FrameScope :=
  scopeOf emitter.current.locals

/-- The number of bytes written so far. -/
def size (emitter : Emitter) : Nat :=
  emitter.current.chunk.code.size

/-- The function under construction is in order, captures are marked, and global slots fit in an
operand. -/
structure Tidy (emitter : Emitter) : Prop where
  current : emitter.current.Tidy
  linked : FunctionCode.Linked emitter.current emitter.enclosing
  globals : ∀ (id : BindingId) (slot : Nat), emitter.globals.slots[id]? = some slot → slot ≤ maxOperand

/-- Code generation has gone on without a change of the variables in scope. -/
structure Continues (before after : Emitter) : Prop where
  globals : after.globals = before.globals
  locals : LocalsLater before.current.locals after.current.locals
  depth : after.current.depth = before.current.depth
  loops : after.current.loops = before.current.loops
  enclosing : List.Forall₂ FunctionCode.Suspended before.enclosing after.enclosing

theorem Continues.refl (emitter : Emitter) : emitter.Continues emitter :=
  ⟨rfl, .refl _, rfl, rfl, List.forall₂_same.mpr fun function _ => .refl function⟩

theorem suspended_trans {first second third : List FunctionCode}
    (hfirst : List.Forall₂ FunctionCode.Suspended first second)
    (hsecond : List.Forall₂ FunctionCode.Suspended second third) :
    List.Forall₂ FunctionCode.Suspended first third := by
  induction hfirst generalizing third with
  | nil => exact hsecond
  | cons hfunction _ ih =>
    cases hsecond with
    | cons hnext hrest => exact .cons (hfunction.trans hnext) (ih hrest)

theorem Continues.trans {first second third : Emitter} (hfirst : first.Continues second)
    (hsecond : second.Continues third) : first.Continues third :=
  ⟨hsecond.globals.trans hfirst.globals, hfirst.locals.trans hsecond.locals,
    hsecond.depth.trans hfirst.depth, hsecond.loops.trans hfirst.loops,
    suspended_trans hfirst.enclosing hsecond.enclosing⟩

theorem Continues.length_eq {before after : Emitter} (hcontinues : before.Continues after) :
    after.scope.length = before.scope.length := by
  simp [scope, hcontinues.locals.length_eq]

end Emitter

/-- The jumps out of loops later on: only the innermost loop may have got more of them. -/
inductive LoopsGrow : List LoopJumps → List LoopJumps → Prop where
  | same {loops : List LoopJumps} : LoopsGrow loops loops
  | inner {before after : LoopJumps} {outer : List LoopJumps} : after.depth = before.depth →
      before.leaving ⊆ after.leaving → before.skipping ⊆ after.skipping →
      LoopsGrow (before :: outer) (after :: outer)

theorem LoopsGrow.trans {first second third : List LoopJumps} (hfirst : LoopsGrow first second)
    (hsecond : LoopsGrow second third) : LoopsGrow first third := by
  cases hfirst with
  | same => exact hsecond
  | inner hdepth hleaving hskipping =>
    cases hsecond with
    | same => exact .inner hdepth hleaving hskipping
    | inner hdepth' hleaving' hskipping' =>
      exact .inner (hdepth'.trans hdepth) (fun _ h => hleaving' (hleaving h)) (fun _ h => hskipping' (hskipping h))

/-- Code generation has gone on: variables may have been declared in the innermost scope, and jumps out
of the innermost loop may have been written. -/
structure Emitter.Advances (before after : Emitter) : Prop where
  globals : after.globals = before.globals
  locals : ∃ declared kept, after.current.locals = declared ++ kept ∧
    LocalsLater before.current.locals kept ∧ ∀ var ∈ declared, var.depth = before.current.depth
  depth : after.current.depth = before.current.depth
  loops : LoopsGrow before.current.loops after.current.loops
  enclosing : List.Forall₂ FunctionCode.Suspended before.enclosing after.enclosing

theorem Emitter.Continues.advances {before after : Emitter} (hcontinues : before.Continues after) :
    before.Advances after :=
  ⟨hcontinues.globals, ⟨[], _, rfl, hcontinues.locals, fun _ h => by cases h⟩, hcontinues.depth,
    by rw [hcontinues.loops]; exact .same, hcontinues.enclosing⟩

theorem Emitter.Advances.length_le {before after : Emitter} (hadvances : before.Advances after) :
    before.scope.length ≤ after.scope.length := by
  obtain ⟨declared, kept, hlocals, hkept, -⟩ := hadvances.locals
  simp only [Emitter.scope, length_scopeOf, hlocals, List.length_append, hkept.length_eq]
  exact Nat.le_add_left ..

theorem Emitter.Advances.trans {first second third : Emitter} (hfirst : first.Advances second)
    (hsecond : second.Advances third) : first.Advances third := by
  refine ⟨hsecond.globals.trans hfirst.globals, ?_, hsecond.depth.trans hfirst.depth,
    hfirst.loops.trans hsecond.loops, suspended_trans hfirst.enclosing hsecond.enclosing⟩
  obtain ⟨declared, kept, heq, hkept, hdeclared⟩ := hfirst.locals
  obtain ⟨declared', kept', heq', hkept', hdeclared'⟩ := hsecond.locals
  rw [heq] at hkept'
  obtain ⟨middle, last, rfl, hmiddle, hlast⟩ := hkept'.split
  refine ⟨declared' ++ middle, last, by rw [heq', List.append_assoc], hkept.trans hlast, ?_⟩
  intro var hvar
  rcases List.mem_append.mp hvar with hnew | hold
  · rw [hdeclared' var hnew, hfirst.depth]
  · obtain ⟨old, hmem, h⟩ := LocalsLater.mem hmiddle hold
    rw [h.depth, hdeclared old hmem]

end OwnScript
