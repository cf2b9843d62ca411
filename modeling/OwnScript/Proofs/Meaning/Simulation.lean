import Mathlib
import OwnScript.Proofs.Meaning.Frames
import OwnScript.Proofs.Meaning.Objects

/-!
How a machine follows an evaluation. If a step of the evaluation has a result, the machine gets to a state that is
tied to it; if the step fails, the machine fails in the same way. In both cases the machine may stop before that for
want of room. Steps of the evaluation in sequence are followed one after the other.
-/

namespace OwnScript

open Stateful Machine

/-- What the end of a scope leaves of a scene in which there were so many variables around the scope. -/
def Scene.leave (scene : Scene) (outside : Nat) : Scene :=
  { scene with locals := scene.locals.drop (scene.locals.length - outside) }

namespace Exec

open Evaluate

variable {α β : Type} {T : Translation} {stops : Diagnostic → Machine → Prop} {goal next : Machine → Prop}
  {m : Machine} {offset target : Nat} {stack temps : List Value} {w : World} {scene : Scene}
  {value : Value} {op : Opcode}
  {a b : Nat} {height : Option Nat} {place : Location} {slots : FrameSlots}

/-- A run ends for want of room. -/
def OutOfRoom (diagnostic : Diagnostic) (_ : Machine) : Prop :=
  diagnostic.kind = .stackOverflow ∨ diagnostic.kind = .outOfMemory

theorem OutOfRoom.excused {fails : Option Failure} {output : String} {diagnostic : Diagnostic}
    (hroom : OutOfRoom diagnostic m) : Excused fails output diagnostic m :=
  hroom.elim .inl fun h => .inr (.inl h)

theorem outOfRoom_of_excused {output : String} {diagnostic : Diagnostic}
    (hexcused : Excused none output diagnostic m) : OutOfRoom diagnostic m := by
  rcases hexcused with h | h | ⟨h, -⟩
  · exact .inl h
  · exact .inr h
  · cases h

theorem Leads.imp (hleads : Leads stops next m) (himp : ∀ after, next after → goal after) : Leads stops goal m :=
  hleads.bind fun after h => .here (himp after h)

/-- The machine follows a step of the evaluation with a certain result. -/
def Follows (T : Translation) (result : EStateM.Result Stop Scene α) (goal : α → Scene → Machine → Prop) (m : Machine) :
    Prop :=
  match result with
  | .ok value scene => Leads OutOfRoom (goal value scene) m
  | .error (.failure failure) scene =>
    Leads (Excused (some failure) (T.printed ++ scene.output)) (fun _ => False) m
  | .error .unfinished _ => True

section Calculus

variable {result : EStateM.Result Stop Scene α} {reached wanted : α → Scene → Machine → Prop}
  {last : β → Scene → Machine → Prop}

theorem Leads.follows (hleads : Leads OutOfRoom next m) (hnext : ∀ after, next after → Follows T result reached after) :
    Follows T result reached m := by
  cases result with
  | ok value scene => exact hleads.bind hnext
  | error stop scene =>
    cases stop with
    | failure failure => exact (hleads.allowing fun _ _ => OutOfRoom.excused).bind hnext
    | unfinished => trivial

theorem Follows.mono (hfollows : Follows T result reached m)
    (hmono : ∀ value scene after, reached value scene after → wanted value scene after) :
    Follows T result wanted m := by
  cases result with
  | ok value scene => exact hfollows.imp fun after => hmono value scene after
  | error stop scene => cases stop <;> exact hfollows

/-- The machine runs on after a step of the evaluation. -/
theorem Follows.runOn (hfollows : Follows T result reached m)
    (hleads : ∀ value scene after, reached value scene after → Leads OutOfRoom (wanted value scene) after) :
    Follows T result wanted m := by
  cases result with
  | ok value scene => exact Leads.bind hfollows fun after => hleads value scene after
  | error stop scene => cases stop <;> exact hfollows

/-- Steps of the evaluation in sequence. -/
theorem Follows.bind {step : Evaluate α} {rest : α → Evaluate β} (hstep : Follows T (step scene) reached m)
    (hrest : ∀ value scene after, reached value scene after → Follows T (rest value scene) last after) :
    Follows T ((step >>= rest) scene) last m := by
  change Follows T (EStateM.bind step rest scene) last m
  unfold EStateM.bind
  generalize step scene = result at hstep
  cases result with
  | ok value scene => exact hstep.follows fun after => hrest value scene after
  | error stop scene =>
    cases stop with
    | failure failure => exact hstep
    | unfinished => trivial

theorem follows_pure {value : α} (hreached : reached value scene m) :
    Follows T ((pure value : Evaluate α) scene) reached m :=
  .here hreached

/-- The scopes inside of a step are left again. -/
theorem follows_withinScope {step : Evaluate α} (hstep : Follows T (step scene) reached m)
    (hclose : ∀ value last after, reached value last after →
      Leads OutOfRoom (wanted value (last.leave scene.locals.length)) after) :
    Follows T (withinScope step scene) wanted m := by
  change Follows T ((step >>= fun value => do
    modify (·.leave scene.locals.length)
    return value) scene) wanted m
  exact hstep.bind hclose

/-- The turns of a loop keep to an invariant until one of them ends the loop. -/
theorem follows_loop (reached : α → Scene → Machine → Prop) {turn : α → Evaluate (α ⊕ Ending)}
    {ended : Ending → Scene → Machine → Prop}
    (hturn : ∀ given scene m, reached given scene m → Follows T (turn given scene) (Sum.elim reached ended) m)
    (turns : Nat) {given : α} (hreached : reached given scene m) : Follows T (loop turn turns given scene) ended m := by
  induction turns generalizing given scene m with
  | zero => trivial
  | succ turns ih =>
    rw [loop]
    refine (hturn given scene m hreached).bind fun result scene after hresult => ?_
    cases result with
    | inl next => exact ih hresult
    | inr ending => exact follows_pure hresult

end Calculus

section Instructions

/-- An instruction that does not fail by itself. -/
theorem leads_always (hhas : T.code.Has offset height op a b place) (hstands : Stands T offset stack w m)
    (halways : Always T stack w (offset + op.size) none goal (execute op a b)) : Leads OutOfRoom goal m :=
  (leads_instruction hhas hstands halways).allowing fun _ _ => outOfRoom_of_excused

/-- An instruction that fails where the evaluation does. -/
theorem follows_answers {result : Except ErrorKind α} {reached : α → Machine → Prop}
    (hhas : T.code.Has offset height op a b place) (hstands : Stands T offset stack scene.toWorld m)
    (hanswers : Answers T stack scene.toWorld (offset + op.size) result reached (execute op a b)) :
    Follows T (orFail place result scene) (fun value last after => last = scene ∧ reached value after) m := by
  cases result with
  | ok value => exact (leads_always hhas hstands hanswers).imp fun after h => ⟨rfl, h⟩
  | error kind => exact leads_instruction hhas hstands hanswers

theorem leads_pop (hhas : T.code.Has offset height .pop 0 0 place) (hstands : Stands T offset (value :: stack) w m) :
    Leads OutOfRoom (Stands T (offset + 1) stack w) m :=
  leads_always hhas hstands (always_pop 0 0)

theorem leads_jump (hjumps : T.code.Jumps offset height .jump place target) (hstands : Stands T offset stack w m) :
    Leads OutOfRoom (Stands T target stack w) m := by
  obtain ⟨distance, hhas, rfl⟩ := hjumps
  exact leads_always hhas hstands (always_jump distance 0)

theorem leads_repeats (hrepeats : T.code.Repeats offset height place target) (hstands : Stands T offset stack w m) :
    Leads OutOfRoom (Stands T target stack w) m := by
  obtain ⟨distance, hhas, htarget⟩ := hrepeats
  have hback : offset + Opcode.loopBack.size - distance = target := by
    have hsize : Opcode.loopBack.size = 3 := rfl
    omega
  exact hback ▸ leads_always hhas hstands (always_loopBack distance 0)

theorem leads_jumpIf (on : Bool) (hop : op = if on then .jumpIfTrue else .jumpIfFalse)
    (hjumps : T.code.Jumps offset height op place target) (hstands : Stands T offset (value :: stack) w m) :
    Leads OutOfRoom (Stands T (if value.truthy = on then target else offset + 3) (value :: stack) w) m := by
  obtain ⟨distance, hhas, rfl⟩ := hjumps
  have hsize : op.size = 3 := by
    subst hop
    cases on <;> rfl
  have hleads := leads_always hhas hstands (always_jumpIf hop distance 0)
  rwa [hsize] at hleads

end Instructions

/-- A point of the evaluation and a machine that is tied to it: before the instruction at an offset, with the slots
of the frame and above them values that the code is about to use. -/
structure Tied (T : Translation) (offset : Nat) (slots : FrameSlots) (temps : List Value) (scene : Scene)
    (m : Machine) :
    Prop where
  locals : scene.locals = slots.locals
  stands : Stands T offset (temps ++ slots.values) scene.toWorld m

/-- A value was pushed; the variables may have changed meanwhile. -/
def Pushed (T : Translation) (offset : Nat) (slots : FrameSlots) (temps : List Value) (value : Value) (scene : Scene)
    (m : Machine) : Prop :=
  ∃ after, slots.Later after ∧ Tied T offset after (value :: temps) scene m

/-- So many values were pushed in order; the variables may have changed meanwhile. -/
def PushedAll (T : Translation) (offset : Nat) (slots : FrameSlots) (temps : List Value) (count : Nat)
    (values : List Value) (scene : Scene) (m : Machine) : Prop :=
  values.length = count ∧ ∃ after, slots.Later after ∧ Tied T offset after (values.reverse ++ temps) scene m

namespace Tied

theorem pop (htied : Tied T offset slots (value :: temps) scene m) (hhas : T.code.Has offset height .pop 0 0 place) :
    Leads OutOfRoom (Tied T (offset + 1) slots temps scene) m :=
  (leads_pop hhas htied.stands).imp fun _ h => ⟨htied.locals, h⟩

theorem jump (htied : Tied T offset slots temps scene m) (hjumps : T.code.Jumps offset height .jump place target) :
    Leads OutOfRoom (Tied T target slots temps scene) m :=
  (leads_jump hjumps htied.stands).imp fun _ h => ⟨htied.locals, h⟩

theorem repeats (htied : Tied T offset slots temps scene m) (hrepeats : T.code.Repeats offset height place target) :
    Leads OutOfRoom (Tied T target slots temps scene) m :=
  (leads_repeats hrepeats htied.stands).imp fun _ h => ⟨htied.locals, h⟩

/-- A condition, which the next instruction drops where it holds. -/
theorem jumpIfFalse (htied : Tied T offset slots (value :: temps) scene m)
    (hjumps : T.code.Jumps offset height .jumpIfFalse place target) :
    Leads OutOfRoom (Tied T (if value.truthy then offset + 3 else target) slots (value :: temps) scene) m := by
  refine (leads_jumpIf false rfl hjumps htied.stands).imp fun after h => ⟨htied.locals, ?_⟩
  cases htruthy : value.truthy <;> simpa [htruthy] using h

theorem answers {result : Except ErrorKind α} {reached : α → Machine → Prop} (htied : Tied T offset slots temps scene m)
    (hhas : T.code.Has offset height op a b place)
    (hanswers : Answers T (temps ++ slots.values) scene.toWorld (offset + op.size) result reached (execute op a b)) :
    Follows T (orFail place result scene) (fun value last after => last = scene ∧ reached value after) m :=
  follows_answers hhas htied.stands hanswers

end Tied

section Variables

variable {scopes : Scopes} {scope : FrameScope} {name : String} {resolution : Resolution}

theorem Tied.pushed (htied : Tied T offset slots (value :: temps) scene m) :
    Pushed T offset slots temps value scene m :=
  ⟨slots, .refl slots, htied⟩

theorem read_local (hlookup : scene.locals.lookup name = some value) : read name place scene = .ok value scene := by
  simp only [Evaluate.read, get_bind_apply, hlookup, Option.some_or, pure_apply]

theorem read_global (hlookup : scene.locals.lookup name = none) :
    read name place scene = orFail place (globalOf scene.toWorld name) scene := by
  simp only [Evaluate.read, get_bind_apply, hlookup, Option.none_or, globalOf]
  cases scene.globals.lookup name <;> rfl

theorem assign_local (hlookup : scene.locals.lookup name = some value) (new : Value) :
    assign name new scene = .ok () { scene with locals := Fields.replaceFirst name new scene.locals } := by
  simp only [assign, modify_apply, hlookup, Option.isSome_some, if_true]

theorem assign_global (hlookup : scene.locals.lookup name = none) (new : Value) :
    assign name new scene = .ok () { scene with globals := (name, new) :: scene.globals } := by
  simp only [assign, modify_apply, hlookup, Option.isSome_none, Bool.false_eq_true, if_false]

/-- A slot of the frame is read. -/
theorem Tied.getSlot {inner outer : FrameSlots} {slot : FrameSlot}
    (htied : Tied T offset (inner ++ slot :: outer) temps scene m) (hhas : T.code.Has offset height .getLocal a b place)
    (ha : a = outer.length) :
    Leads OutOfRoom (Tied T (offset + 3) (inner ++ slot :: outer) (slot.value :: temps) scene) m := by
  have hstands := htied.stands
  rw [FrameSlots.values_append, FrameSlots.values_cons, ← List.append_assoc] at hstands
  have ha : a = outer.values.length := ha.trans FrameSlots.length_values.symm
  refine (leads_always hhas hstands (always_getLocal ha b)).imp fun after h => ⟨htied.locals, ?_⟩
  rw [FrameSlots.values_append, FrameSlots.values_cons, List.cons_append, ← List.append_assoc]
  exact h

/-- What the code keeps for itself in a slot changes. -/
theorem Tied.setHidden {inner outer : FrameSlots} {old : Value}
    (htied : Tied T offset (inner ++ .hidden old :: outer) (value :: temps) scene m)
    (hhas : T.code.Has offset height .setLocal a b place) (ha : a = outer.length) :
    Leads OutOfRoom (Tied T (offset + 3) (inner ++ .hidden value :: outer) (value :: temps) scene) m := by
  have hstands := htied.stands
  rw [FrameSlots.values_append, FrameSlots.values_cons, List.cons_append, ← List.append_assoc] at hstands
  have ha : a = outer.values.length := ha.trans FrameSlots.length_values.symm
  refine (leads_always hhas hstands (always_setLocal ha b)).imp fun after h => ⟨?_, ?_⟩
  · simpa using htied.locals
  · rw [FrameSlots.values_append, FrameSlots.values_cons, List.cons_append, ← List.append_assoc]
    exact h

/-- A value that was pushed becomes a slot that the code keeps for itself. -/
theorem Tied.hide (htied : Tied T offset slots [value] scene m) : Tied T offset (.hidden value :: slots) [] scene m :=
  ⟨htied.locals, htied.stands⟩

theorem follows_read (htied : Tied T offset slots temps scene m) (hsituated : Situated T.nameOf scopes slots scope)
    (hvisible : scopes.visible name = some resolution) (haccesses : Accesses T.table scope resolution .get op a)
    (hhas : T.code.Has offset height op a b place) :
    Follows T (read name place scene) (Pushed T (offset + 3) slots temps) m := by
  rcases hsituated.reach hvisible haccesses with
    ⟨inner, id, value, outer, rfl, hnone, rfl, rfl⟩ | ⟨id, hnone, rfl, hslot, rfl⟩
  · rw [read_local (htied.locals ▸ FrameSlots.lookup_named hnone)]
    exact (htied.getSlot hhas rfl).imp fun after h => h.pushed
  · rw [read_global (htied.locals ▸ hnone)]
    refine (htied.answers hhas (answers_getGlobal hslot b)).mono fun value last after h => ?_
    obtain ⟨rfl, h⟩ := h
    exact Tied.pushed ⟨htied.locals, h⟩

/-- A variable is read and gives up its value. -/
def take (name : String) (place : Location) : Evaluate Value := do
  let value ← read name place
  assign name .nil
  return value

theorem follows_take (htied : Tied T offset slots temps scene m) (hsituated : Situated T.nameOf scopes slots scope)
    (hvisible : scopes.visible name = some resolution) (haccesses : Accesses T.table scope resolution .move op a)
    (hhas : T.code.Has offset height op a b place) :
    Follows T (take name place scene) (Pushed T (offset + 3) slots temps) m := by
  rcases hsituated.reach hvisible haccesses with
    ⟨inner, id, value, outer, rfl, hnone, rfl, rfl⟩ | ⟨id, hnone, rfl, hslot, rfl⟩
  · have hlookup : scene.locals.lookup name = some value := htied.locals ▸ FrameSlots.lookup_named hnone
    have htake : take name place scene =
        .ok value { scene with locals := Fields.replaceFirst name .nil scene.locals } := by
      simp only [take, bind_apply, read_local hlookup, assign_local hlookup, pure_apply]
    rw [htake]
    have hstands := htied.stands
    rw [FrameSlots.values_append, FrameSlots.values_cons, ← List.append_assoc] at hstands
    refine (leads_always hhas hstands (always_moveLocal FrameSlots.length_values.symm b)).imp fun after h => ?_
    refine ⟨inner ++ .named name id .nil :: outer, .named (FrameSlots.Later.refl inner) (.refl outer), ?_, ?_⟩
    · rw [htied.locals]
      exact FrameSlots.replaceFirst_named hnone
    · rw [FrameSlots.values_append, FrameSlots.values_cons, List.cons_append, ← List.append_assoc]
      exact h
  · have hlookup : scene.locals.lookup (T.nameOf id) = none := htied.locals ▸ hnone
    change Follows T ((read (T.nameOf id) place >>= _) scene) _ m
    have hread : Follows T (read (T.nameOf id) place scene) (fun value last after => last = scene ∧
      Stands T (offset + 3)
        (value :: (temps ++ slots.values)) { scene.toWorld with globals := (T.nameOf id, .nil) :: scene.globals } after)
        m := by
      rw [read_global hlookup]
      exact htied.answers hhas (answers_moveGlobal hslot b)
    refine hread.bind ?_
    rintro value last after ⟨rfl, h⟩
    simp only [bind_apply, assign_global hlookup]
    exact follows_pure (Tied.pushed ⟨htied.locals, h⟩)

/-- The value on top of the stack is stored in a variable. -/
theorem follows_assign (htied : Tied T offset slots (value :: temps) scene m)
    (hsituated : Situated T.nameOf scopes slots scope) (hvisible : scopes.visible name = some resolution)
    (haccesses : Accesses T.table scope resolution .set op a) (hhas : T.code.Has offset height op a b place) :
    Follows T (assign name value scene) (fun _ => Pushed T (offset + 3) slots temps value) m := by
  rcases hsituated.reach hvisible haccesses with
    ⟨inner, id, old, outer, rfl, hnone, rfl, rfl⟩ | ⟨id, hnone, rfl, hslot, rfl⟩
  · rw [assign_local (htied.locals ▸ FrameSlots.lookup_named hnone)]
    have hstands := htied.stands
    rw [FrameSlots.values_append, FrameSlots.values_cons, List.cons_append, ← List.append_assoc] at hstands
    refine (leads_always hhas hstands (always_setLocal FrameSlots.length_values.symm b)).imp fun after h => ?_
    refine ⟨inner ++ .named name id value :: outer, .named (FrameSlots.Later.refl inner) (.refl outer), ?_, ?_⟩
    · rw [htied.locals]
      exact FrameSlots.replaceFirst_named hnone
    · rw [FrameSlots.values_append, FrameSlots.values_cons, List.cons_append, ← List.append_assoc]
      exact h
  · rw [assign_global (htied.locals ▸ hnone)]
    refine (leads_always hhas htied.stands (always_setGlobal hslot b)).imp fun after h => ?_
    exact Tied.pushed ⟨htied.locals, h⟩

end Variables

end Exec

end OwnScript
