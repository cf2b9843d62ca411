import OwnScript.Proofs.Globals.Places
import OwnScript.Proofs.Lowering.Scopes
import OwnScript.Proofs.Lowering.Variables
import OwnScript.Proofs.Stack.Profiles

/-!
Slots that no name leads to. The code of an expression or a statement does not write to a variable of the frame
that has no name, no function inside captures it, and every operation finds it below the values that it takes.
So it is wherever control may get in the code, as long as it does not get out of the part at hand; how many
operations are looked at is counted, so that loops are no obstacle.
-/

namespace OwnScript

namespace Opcode

/-- The operations that do nothing but replace values on top of the stack and go on behind. -/
def isMild : Opcode → Bool
  | .setLocal | .moveLocal | .closure | .call | .jump | .jumpIfFalse | .jumpIfTrue | .loopBack | .ret | .halt
  | .noMatchingArm | .noMatchingOverload => false
  | _ => true

/-- An operation of the running function does no harm to a slot of its frame: the slot lies below the values that
the operation takes, the operation does not write to it and makes no function that captures it. -/
structure Harmless (chunk : Chunk) (slot : Nat) (height : Option Nat) (op : Opcode) (a : Nat) : Prop where
  low : op.taken chunk a = 0 ∨ ∃ k, height = some k ∧ slot + op.taken chunk a < k
  called : op = .call → ∃ k, height = some k ∧ slot + a + 1 < k
  unwritten : op = .setLocal ∨ op = .moveLocal → a ≠ slot
  uncaptured : op = .closure → ∀ prototype, chunk.functions[a]? = some (some prototype) →
    ∀ capture ∈ prototype.captures, capture.isLocal = true → capture.index ≠ slot

theorem targets_mild {op : Opcode} (hmild : op.isMild = true) (offset a : Nat) (met : Bool) :
    op.targets offset a met = [offset + op.size] := by
  cases op <;> first | rfl | cases hmild

theorem harmless_of_low {chunk : Chunk} {slot : Nat} {height : Option Nat} {op : Opcode} {a : Nat}
    (hop : op ≠ .setLocal ∧ op ≠ .moveLocal ∧ op ≠ .closure ∧ op ≠ .call)
    (hlow : op.taken chunk a = 0 ∨ ∃ k, height = some k ∧ slot + op.taken chunk a < k) :
    op.Harmless chunk slot height a where
  low := hlow
  called h := absurd h hop.2.2.2
  unwritten h := (h.elim hop.1 hop.2.1).elim
  uncaptured h := absurd h hop.2.2.1

theorem harmless_mild {chunk : Chunk} {slot : Nat} {height : Option Nat} {op : Opcode} {a : Nat}
    (hmild : op.isMild = true)
    (hlow : op.taken chunk a = 0 ∨ ∃ k, height = some k ∧ slot + op.taken chunk a < k) :
    op.Harmless chunk slot height a := by
  refine harmless_of_low ⟨?_, ?_, ?_, ?_⟩ hlow
  all_goals
    rintro rfl
    cases hmild

theorem harmless_call {chunk : Chunk} {slot k a : Nat} (hroom : slot + a + 1 < k) :
    Opcode.call.Harmless chunk slot (some k) a where
  low := .inl rfl
  called _ := ⟨k, rfl, hroom⟩
  unwritten h := by rcases h with h | h <;> cases h
  uncaptured h := by cases h

theorem harmless_closure {chunk : Chunk} {slot a : Nat} {height : Option Nat}
    (huncaptured : ∀ prototype, chunk.functions[a]? = some (some prototype) →
      ∀ capture ∈ prototype.captures, capture.isLocal = true → capture.index ≠ slot) :
    Opcode.closure.Harmless chunk slot height a where
  low := .inl rfl
  called h := by cases h
  unwritten h := by rcases h with h | h <;> cases h
  uncaptured _ := huncaptured

/-- Another variable is accessed. -/
theorem harmless_frame {chunk : Chunk} {slot a : Nat} {height : Option Nat} (how : Emit.Access) (hother : a ≠ slot) :
    how.frame.Harmless chunk slot height a where
  low := .inl (by cases how <;> rfl)
  called h := by cases how <;> cases h
  unwritten _ := hother
  uncaptured h := by cases how <;> cases h

end Opcode

namespace FrameScope

/-- The slots of variables that have no name and that no function inside uses. -/
def Hides : FrameScope → Nat → Prop
  | [], _ => False
  | var :: rest, slot => (slot = List.length rest ∧ var.binding = none ∧ var.captured = false) ∨ Hides rest slot

theorem Hides.lt {scope : FrameScope} {slot : Nat} (hhides : scope.Hides slot) : slot < scope.length := by
  induction scope with
  | nil => exact hhides.elim
  | cons var rest ih =>
    rcases hhides with ⟨rfl, -⟩ | hrest
    · exact Nat.lt_succ_self _
    · exact (ih hrest).trans (Nat.lt_succ_self _)

theorem Hides.later {before after : FrameScope} (hlater : before.Later after) {slot : Nat}
    (hhides : before.Hides slot) : after.Hides slot := by
  induction hlater with
  | nil => exact hhides
  | cons hvar hrest ih =>
    rcases hhides with ⟨rfl, hbinding, hcaptured⟩ | hold
    · exact .inl ⟨(FrameScope.Later.length_eq hrest).symm, hvar.binding.trans hbinding,
        (hvar.unnamed hbinding).trans hcaptured⟩
    · exact .inr (ih hold)

theorem hides_append {inner outer : FrameScope} {slot : Nat} (hlow : slot < outer.length) :
    FrameScope.Hides (inner ++ outer) slot ↔ outer.Hides slot := by
  induction inner with
  | nil => rfl
  | cons var rest ih =>
    refine ⟨fun hhides => ?_, fun hhides => .inr (ih.mpr hhides)⟩
    rcases hhides with ⟨rfl, -⟩ | hrest
    · change (rest ++ outer).length < outer.length at hlow
      rw [List.length_append] at hlow
      omega
    · exact ih.mp hrest

theorem Hides.grows {before after : FrameScope} (hgrows : before.Grows after) {slot : Nat}
    (hhides : before.Hides slot) : after.Hides slot := by
  obtain ⟨declared, kept, rfl, hkept⟩ := hgrows
  have hlow := hhides.lt
  rw [← hkept.length_eq] at hlow
  exact (hides_append hlow).mpr (hhides.later hkept)

/-- No name leads to such a slot. -/
theorem Hides.ne_of_slotOf {scope : FrameScope} {slot other : Nat} (hhides : scope.Hides slot) {id : BindingId}
    (hfound : scope.slotOf? id = some other) : other ≠ slot := by
  induction scope with
  | nil => exact hhides.elim
  | cons var rest ih =>
    simp only [slotOf?] at hfound
    split at hfound
    · rename_i hname
      obtain rfl := Option.some.inj hfound
      rcases hhides with ⟨-, hbinding, -⟩ | hrest
      · rw [hbinding] at hname
        cases hname
      · exact (Nat.ne_of_lt hrest.lt).symm
    · rcases hhides with ⟨rfl, -⟩ | hrest
      · exact Nat.ne_of_lt (slotOf?_lt hfound)
      · exact ih hrest hfound

/-- No function inside uses such a slot. -/
theorem Hides.ne_of_held {scope : FrameScope} {slot other : Nat} (hhides : scope.Hides slot)
    (hheld : scope.Held other) : other ≠ slot := by
  induction scope with
  | nil => exact hhides.elim
  | cons var rest ih =>
    rcases hheld with ⟨rfl, hcaptured⟩ | hheld
    · rcases hhides with ⟨-, -, hfree⟩ | hrest
      · rw [hcaptured] at hfree
        cases hfree
      · exact (Nat.ne_of_lt hrest.lt).symm
    · rcases hhides with ⟨rfl, -⟩ | hrest
      · exact Nat.ne_of_lt hheld.lt
      · exact ih hrest hheld

end FrameScope

/-- So many operations from an offset on do no harm to a slot, unless control gets out before. -/
def Listing.Heeds (F : Listing True) (slot : Nat) (out : Nat → Prop) : Nat → Nat → Prop
  | 0, _ => True
  | count + 1, offset => out offset ∨ ∃ (op : Opcode) (a b : Nat) (height : Option Nat) (location : Location),
      F.Has offset height op a b location ∧ op.Harmless F.chunk slot height a ∧
        ∀ next ∈ op.targets offset a false, F.Heeds slot out count next

section Operations

variable {F : Listing True} {slot n p a b k : Nat} {out : Nat → Prop} {height : Option Nat} {op : Opcode}
  {location : Location}

theorem Listing.Heeds.fewer (hheeds : F.Heeds slot out (n + 1) p) : F.Heeds slot out n p := by
  induction n generalizing p with
  | zero => trivial
  | succ n ih =>
    rcases hheeds with hout | ⟨op, a, b, height, location, hhas, hharmless, hnext⟩
    · exact .inl hout
    · exact .inr ⟨op, a, b, height, location, hhas, hharmless, fun next h => ih (hnext next h)⟩

theorem Listing.Heeds.of_le {more : Nat} (hle : n ≤ more) (hheeds : F.Heeds slot out more p) :
    F.Heeds slot out n p := by
  induction hle with
  | refl => exact hheeds
  | step _ ih => exact ih hheeds.fewer

theorem heeds_out (hout : out p) : F.Heeds slot out n p := by
  cases n with
  | zero => trivial
  | succ n => exact .inl hout

/-- An instruction in front of code that does no harm. -/
theorem heeds_step (hhas : F.Has p height op a b location) (hharmless : op.Harmless F.chunk slot height a)
    (hnext : ∀ next ∈ op.targets p a false, F.Heeds slot out n next) : F.Heeds slot out n p :=
  Listing.Heeds.fewer (.inr ⟨op, a, b, height, location, hhas, hharmless, hnext⟩)

/-- An operation replaces values above the slot. -/
theorem heeds_mild (hhas : F.Has p (some k) op a b location) (hmild : op.isMild = true)
    (hlow : slot + op.taken F.chunk a < k) (hnext : F.Heeds slot out n (p + op.size)) : F.Heeds slot out n p := by
  refine heeds_step hhas (Opcode.harmless_mild hmild (.inr ⟨k, rfl, hlow⟩)) fun next h => ?_
  rw [Opcode.targets_mild hmild] at h
  obtain rfl := List.mem_singleton.mp h
  exact hnext

theorem heeds_pop (hhas : F.Has p (some k) .pop a b location) (hlow : slot + 1 < k)
    (hnext : F.Heeds slot out n (p + 1)) : F.Heeds slot out n p :=
  heeds_mild hhas rfl hlow hnext

/-- Control does not go on. -/
theorem heeds_end (hhas : F.Has p height op a b location) (hharmless : op.Harmless F.chunk slot height a)
    (hends : op.targets p a false = []) : F.Heeds slot out n p :=
  heeds_step hhas hharmless fun next h => by
    rw [hends] at h
    cases h

theorem heeds_return (hhas : F.Has p (some k) .ret a b location) (hlow : slot + 1 < k) : F.Heeds slot out n p :=
  heeds_end hhas (Opcode.harmless_of_low (by decide) (.inr ⟨k, rfl, hlow⟩)) rfl

/-- Control goes on elsewhere. -/
theorem heeds_jump {target : Nat} (hjumps : F.Jumps p height .jump location target)
    (hnext : F.Heeds slot out n target) : F.Heeds slot out n p := by
  obtain ⟨distance, hhas, rfl⟩ := hjumps
  refine heeds_step hhas (Opcode.harmless_of_low (by decide) (.inl rfl)) fun next h => ?_
  obtain rfl := List.mem_singleton.mp h
  exact hnext

/-- Control goes on elsewhere or here. -/
theorem heeds_branch {target : Nat} (hop : op = .jumpIfFalse ∨ op = .jumpIfTrue)
    (hjumps : F.Jumps p height op location target) (hthere : F.Heeds slot out n target)
    (hhere : F.Heeds slot out n (p + 3)) : F.Heeds slot out n p := by
  obtain ⟨distance, hhas, rfl⟩ := hjumps
  have hnext (next : Nat) (h : next ∈ [p + 3 + distance, p + 3]) : F.Heeds slot out n next := by
    rcases List.mem_pair.mp h with rfl | rfl
    · exact hthere
    · exact hhere
  rcases hop with rfl | rfl
  · exact heeds_step hhas (Opcode.harmless_of_low (by decide) (.inl rfl)) hnext
  · exact heeds_step hhas (Opcode.harmless_of_low (by decide) (.inl rfl)) hnext

/-- Control goes back, so that one operation more can be looked at. -/
theorem heeds_repeat {target : Nat} (hrepeats : F.Repeats p height location target)
    (hnext : F.Heeds slot out n target) : F.Heeds slot out (n + 1) p := by
  obtain ⟨distance, hhas, htarget⟩ := hrepeats
  refine .inr ⟨_, _, _, _, _, hhas, Opcode.harmless_of_low (by decide) (.inl rfl), fun next h => ?_⟩
  obtain rfl := List.mem_singleton.mp h
  have hback : p + 3 - distance = target := by omega
  exact hback.symm ▸ hnext

/-- A loop does no harm if none of its turns does, provided that control goes back to code that does none. -/
theorem heeds_turns (hturn : ∀ m < n, F.Heeds slot out m p → F.Heeds slot out (m + 1) p) : F.Heeds slot out n p := by
  induction n with
  | zero => trivial
  | succ n ih => exact hturn n (Nat.lt_succ_self n) (ih fun m hm => hturn m (hm.trans (Nat.lt_succ_self n)))

/-- A variable is accessed by its name. -/
theorem heeds_access {globals : GlobalTable} {scope : FrameScope} {resolution : Resolution} {how : Emit.Access}
    (hhas : F.Has p (some k) op a 0 location) (haccesses : Accesses globals scope resolution how op a)
    (hhides : scope.Hides slot) (hlow : slot < k) (hnext : F.Heeds slot out n (p + 3)) : F.Heeds slot out n p := by
  cases haccesses with
  | global =>
    cases how with
    | get => exact heeds_mild hhas rfl hlow hnext
    | set => exact heeds_mild hhas rfl hlow hnext
    | move => exact heeds_mild hhas rfl hlow hnext
  | frame _ _ hfound =>
    refine heeds_step hhas (Opcode.harmless_frame how (hhides.ne_of_slotOf hfound)) fun next h => ?_
    have htargets : how.frame.targets p a false = [p + 3] := by cases how <;> rfl
    rw [htargets] at h
    obtain rfl := List.mem_singleton.mp h
    exact hnext
  | captured =>
    cases how with
    | get => exact heeds_mild hhas rfl hlow hnext
    | set => exact heeds_mild hhas rfl hlow hnext
    | move => exact heeds_mild hhas rfl hlow hnext

/-- A pattern is tried. -/
theorem heeds_match {target : Nat} (hhas : F.Has p (some k) .matchValue a b location) (hlow : slot < k) {bound : Nat}
    (hjumps : F.Jumps (p + 5) none .jumpIfFalse location (target + 3))
    (hpop : F.Has (p + 8) (some (k + bound + 1)) .pop 0 0 location)
    (hfail : F.Has (target + 3) (some (k + 1)) .pop 0 0 location)
    (hmatches : F.Heeds slot out n (p + 9)) (hfails : F.Heeds slot out n (target + 4)) : F.Heeds slot out n p := by
  refine heeds_mild hhas rfl hlow ?_
  refine heeds_branch (.inl rfl) hjumps (heeds_pop hfail (by omega) hfails) (heeds_pop hpop (by omega) hmatches)

theorem DropCode.heeds {outside q : Nat} {dropped : FrameScope} (hcode : DropCode F location outside dropped p q)
    (hlow : slot < outside) (hnext : F.Heeds slot out n q) : F.Heeds slot out n p := by
  induction hcode with
  | nil => exact hnext
  | @cons var rest p after hhas _ ih =>
    have hop : var.dropOp.isMild = true ∧ var.dropOp.taken F.chunk 0 = 1 ∧ var.dropOp.size = 1 := by
      unfold FrameVar.dropOp
      split
      · exact ⟨rfl, rfl, rfl⟩
      · exact ⟨rfl, rfl, rfl⟩
    refine heeds_mild hhas hop.1 (by omega) ?_
    rw [hop.2.2]
    exact ih hnext

end Operations

/-- The jumps out of the body of a loop drop nothing that they should not, and lead to code that does no harm. -/
structure Listing.HeedsAround (F : Listing True) (slot : Nat) (out : Nat → Prop) (n : Nat) (plan : LoopPlan) :
    Prop where
  room : slot < plan.outside
  leave : F.Heeds slot out n plan.leave
  skip : F.Heeds slot out n plan.skip

section Programs

variable {globals : GlobalTable} {F : Listing True} {slot : Nat} {out : Nat → Prop}

theorem heeds_unary (operator : UnaryOp) {n q k : Nat} {location : Location}
    (hhas : F.Has q (some (k + 1)) operator.opcode 0 0 location) (hlow : slot < k)
    (hnext : F.Heeds slot out n (q + 1)) : F.Heeds slot out n q := by
  have hlow : slot + 1 < k + 1 := Nat.succ_lt_succ hlow
  cases operator with
  | negate => exact heeds_mild hhas rfl hlow hnext
  | logicalNot => exact heeds_mild hhas rfl hlow hnext
  | bitwiseNot => exact heeds_mild hhas rfl hlow hnext

theorem heeds_binary {operator : BinaryOp} (hlogical : operator.isLogical = false) {n q k : Nat} {location : Location}
    (hhas : F.Has q (some (k + 2)) operator.opcode 0 0 location) (hlow : slot < k)
    (hnext : F.Heeds slot out n (q + 1)) : F.Heeds slot out n q := by
  have hop : operator.opcode.isMild = true ∧ operator.opcode.taken F.chunk 0 = 2 ∧ operator.opcode.size = 1 := by
    cases operator <;> first | exact ⟨rfl, rfl, rfl⟩ | cases hlogical
  exact heeds_mild hhas hop.1 (by omega) (hop.2.2.symm ▸ hnext)

theorem heeds_loads {value : Literal} {op : Opcode} {n p a k : Nat} {location : Location}
    (hhas : F.Has p (some k) op a 0 location) (hloads : Loads F.chunk value op a) (hlow : slot < k)
    (hnext : F.Heeds slot out n (p + op.size)) : F.Heeds slot out n p := by
  cases hloads with
  | nil => exact heeds_mild hhas rfl hlow hnext
  | true => exact heeds_mild hhas rfl hlow hnext
  | false => exact heeds_mild hhas rfl hlow hnext
  | constant => exact heeds_mild hhas rfl hlow hnext
  | text => exact heeds_mild hhas rfl hlow hnext

/-- The code that makes a closure. -/
theorem ClosureCode.heeds {n height p : Nat} {scope after : FrameScope} {location : Location} {function : Function}
    (hcode : ClosureCode globals F height scope p location function after) (hhides : scope.Hides slot)
    (hnext : F.Heeds slot out n (p + 3)) : F.Heeds slot out n p := by
  cases hcode with
  | intro hhas hfound _ hlater hheld =>
    refine heeds_step hhas (Opcode.harmless_closure fun prototype hagain capture hcapture hlocal => ?_) fun next h => ?_
    · obtain rfl := Option.some.inj (Option.some.inj (hfound.symm.trans hagain))
      exact (hhides.later hlater).ne_of_held (hheld capture hcapture hlocal)
    · obtain rfl := List.mem_singleton.mp h
      exact hnext

mutual

/-- The code of an expression. -/
theorem ExprCode.heeds (expr : Expr) {n height p q : Nat} {scope after : FrameScope}
    (hcode : ExprCode globals F height scope p expr after q) (hhides : scope.Hides slot) (hlow : slot < height)
    (hnext : F.Heeds slot out n q) : F.Heeds slot out n p := by
  cases expr with
  | absent =>
    cases hcode
    exact hnext
  | literal =>
    cases hcode with
    | literal hhas hloads => exact heeds_loads hhas hloads hlow hnext
  | name =>
    cases hcode with
    | name hhas haccesses => exact heeds_access hhas haccesses hhides hlow hnext
  | unary location operator operand =>
    cases hcode with
    | unary hoperand hhas => exact ExprCode.heeds operand hoperand hhides hlow (heeds_unary operator hhas hlow hnext)
  | binary location operator left right =>
    cases hcode with
    | binary hlogical hleft hright hhas =>
      refine ExprCode.heeds left hleft hhides hlow ?_
      refine ExprCode.heeds right hright (hhides.later hleft.later) (by omega) ?_
      exact heeds_binary hlogical hhas hlow hnext
    | logical hlogical hleft hjumps hpop hright =>
      have hop : operator.opcode = .jumpIfFalse ∨ operator.opcode = .jumpIfTrue := by
        cases operator <;> first | exact .inl rfl | exact .inr rfl | cases hlogical
      refine ExprCode.heeds left hleft hhides hlow (heeds_branch hop hjumps hnext (heeds_pop hpop (by omega) ?_))
      exact ExprCode.heeds right hright (hhides.later hleft.later) hlow hnext
  | call location callee arguments =>
    cases hcode with
    | call hcallee harguments hhas =>
      refine ExprCode.heeds callee hcallee hhides hlow ?_
      refine ExprsCode.heeds arguments harguments (hhides.later hcallee.later) (by omega) ?_
      refine heeds_step hhas (Opcode.harmless_call (by omega)) fun next h => ?_
      obtain rfl := List.mem_singleton.mp h
      exact hnext
  | field location object name =>
    cases hcode with
    | field hobject hhas =>
      exact ExprCode.heeds object hobject hhides hlow (heeds_mild hhas rfl (Nat.succ_lt_succ hlow) hnext)
  | index location object index =>
    cases hcode with
    | index hobject hindex hhas =>
      refine ExprCode.heeds object hobject hhides hlow ?_
      refine ExprCode.heeds index hindex (hhides.later hobject.later) (by omega) ?_
      exact heeds_mild hhas rfl (Nat.add_lt_add_right hlow 2) hnext
  | record location fields =>
    cases hcode with
    | record hfields hhas hshape =>
      refine FieldsCode.heeds fields hfields hhides hlow (heeds_mild hhas rfl ?_ hnext)
      simp only [Opcode.taken, hshape, Option.elim_some, List.length_map]
      omega
  | array location items =>
    cases hcode with
    | array hitems hhas =>
      exact ExprsCode.heeds items hitems hhides hlow (heeds_mild hhas rfl (Nat.add_lt_add_right hlow _) hnext)
  | lambda location function =>
    cases hcode with
    | lambda hclosure => exact hclosure.heeds hhides hnext
  | borrow location target exclusive =>
    cases hcode with
    | borrow htarget => exact ExprCode.heeds target htarget hhides hlow hnext
  | move location target =>
    cases hcode with
    | move hhas haccesses => exact heeds_access hhas haccesses hhides hlow hnext
  | deref location operand =>
    cases hcode with
    | deref hoperand => exact ExprCode.heeds operand hoperand hhides hlow hnext
termination_by structural expr

theorem ExprsCode.heeds (exprs : List Expr) {n height p q : Nat} {scope after : FrameScope}
    (hcode : ExprsCode globals F height scope p exprs after q) (hhides : scope.Hides slot) (hlow : slot < height)
    (hnext : F.Heeds slot out n q) : F.Heeds slot out n p := by
  cases exprs with
  | nil =>
    cases hcode
    exact hnext
  | cons expr rest =>
    cases hcode with
    | cons hfirst hrest =>
      refine ExprCode.heeds expr hfirst hhides hlow ?_
      exact ExprsCode.heeds rest hrest (hhides.later hfirst.later) (by omega) hnext
termination_by structural exprs

theorem FieldsCode.heeds (fields : List (String × Expr)) {n height p q : Nat} {scope after : FrameScope}
    (hcode : FieldsCode globals F height scope p fields after q) (hhides : scope.Hides slot) (hlow : slot < height)
    (hnext : F.Heeds slot out n q) : F.Heeds slot out n p := by
  cases fields with
  | nil =>
    cases hcode
    exact hnext
  | cons field rest =>
    obtain ⟨name, value⟩ := field
    cases hcode with
    | cons hfirst hrest =>
      refine ExprCode.heeds value hfirst hhides hlow ?_
      exact FieldsCode.heeds rest hrest (hhides.later hfirst.later) (by omega) hnext
termination_by structural fields

end

mutual

/-- The code of a statement. -/
theorem StmtCode.heeds (stmt : Stmt) {n p q : Nat} {loop : Option LoopPlan} {scope after : FrameScope}
    (hcode : StmtCode globals F loop scope p stmt after q) (hhides : scope.Hides slot)
    (haround : ∀ plan ∈ loop, F.HeedsAround slot out n plan) (hnext : F.Heeds slot out n q) : F.Heeds slot out n p := by
  have hlow := hhides.lt
  cases stmt with
  | absent =>
    cases hcode
    exact hnext
  | declare location name initial resolution =>
    cases hcode with
    | declareUndefined => exact hnext
    | declareGlobal _ _ _ hinitial hset hpop =>
      refine ExprCode.heeds _ hinitial hhides hlow
        (heeds_mild hset rfl ?_ (heeds_pop hpop (Nat.succ_lt_succ hlow) hnext))
      simpa [Opcode.taken] using hlow.trans (Nat.lt_succ_self _)
    | declareEmpty _ hhas => exact heeds_mild hhas rfl hlow hnext
    | declareLocal _ hinitial => exact ExprCode.heeds _ hinitial hhides hlow hnext
  | assign location name value resolution =>
    cases hcode with
    | assign hvalue hhas haccesses hpop =>
      exact ExprCode.heeds _ hvalue hhides hlow (heeds_access hhas haccesses (hhides.later hvalue.later) (by omega)
        (heeds_pop hpop (Nat.succ_lt_succ hlow) hnext))
  | assignField location object field value =>
    cases hcode with
    | assignField hobject hvalue hhas _ hpop =>
      refine ExprCode.heeds _ hobject hhides hlow (ExprCode.heeds _ hvalue (hhides.later hobject.later) (by omega) ?_)
      exact heeds_mild hhas rfl (Nat.add_lt_add_right hlow 2) (heeds_pop hpop (Nat.succ_lt_succ hlow) hnext)
  | assignIndex location object index value =>
    cases hcode with
    | assignIndex hobject hindex hvalue hhas hpop =>
      have hafterObject := hhides.later hobject.later
      refine ExprCode.heeds _ hobject hhides hlow (ExprCode.heeds _ hindex hafterObject (by omega) ?_)
      refine ExprCode.heeds _ hvalue (hafterObject.later hindex.later) (by omega) ?_
      exact heeds_mild hhas rfl (Nat.add_lt_add_right hlow 3) (heeds_pop hpop (Nat.succ_lt_succ hlow) hnext)
  | evaluate location expression =>
    cases hcode with
    | evaluate hexpression hpop =>
      exact ExprCode.heeds _ hexpression hhides hlow (heeds_pop hpop (Nat.succ_lt_succ hlow) hnext)
  | print location expression =>
    cases hcode with
    | print hexpression hhas =>
      exact ExprCode.heeds _ hexpression hhides hlow (heeds_mild hhas rfl (Nat.succ_lt_succ hlow) hnext)
  | block location body =>
    cases hcode with
    | block hbody _ hdrop => exact StmtsCode.heeds body hbody hhides haround (hdrop.heeds hlow hnext)
  | ifElse location condition yes no =>
    cases hcode with
    | ifElse hcondition hbranch hpop _ hyes hlength hjump hfail _ hno =>
      have hfirst := hhides.later hcondition.later
      have hsecond := hfirst.grows hyes.grows
      refine ExprCode.heeds _ hcondition hhides hlow
        (heeds_branch (.inl rfl) hbranch (heeds_pop hfail ?_ ?_) (heeds_pop hpop ?_ ?_))
      · exact Nat.succ_lt_succ hsecond.lt
      · exact StmtCode.heeds no hno hsecond haround hnext
      · exact Nat.succ_lt_succ hlow
      · exact StmtCode.heeds yes hyes hfirst haround (heeds_jump hjump hnext)
  | cond location scrutinee arms =>
    cases hcode with
    | condGuards harms => exact GuardedCode.heeds arms harms hhides haround hnext
    | condPatterns _ hscrutinee harms _ hdrop =>
      refine ExprCode.heeds _ hscrutinee hhides hlow ?_
      exact PatternedCode.heeds arms harms (.inr (hhides.later hscrutinee.later)) haround (hdrop.heeds hlow hnext)
  | whileLoop location condition body =>
    cases hcode with
    | whileLoop hcondition hbranch hpop _ hbody _ hdrop hrepeats hfail =>
      refine heeds_turns fun m hm hhead => ?_
      have hleave : F.Heeds slot out (m + 1) _ := hnext.of_le (Nat.succ_le_of_lt hm)
      have hback := heeds_repeat hrepeats hhead
      refine ExprCode.heeds _ hcondition hhides hlow (heeds_branch (.inl rfl) hbranch
        (heeds_pop hfail (Nat.succ_lt_succ hlow) hleave) (heeds_pop hpop (Nat.succ_lt_succ hlow) ?_))
      refine StmtCode.heeds body hbody (hhides.later hcondition.later) (fun plan hplan => ?_) (hdrop.heeds hlow hback)
      cases hplan
      exact ⟨hlow, hleave, hback⟩
  | forLoop location counter binding start bound body =>
    cases hcode with
    | forLoop hstart hbound hcounter hlimit hless hbranch hpop hfresh _ hbody _ _ hdrop hold hone _ hadd hstore hspare
        hrepeats hfail hhidden =>
      have hfirst : FrameScope.Hides (⟨none, false⟩ :: _) slot := .inr (hhides.later hstart.later)
      have hsecond := hfirst.later hbound.later
      refine ExprCode.heeds _ hstart hhides hlow (ExprCode.heeds _ hbound hfirst (by omega) ?_)
      refine heeds_turns fun m hm hhead => ?_
      have hleave := hhidden.heeds hlow (hnext.of_le (Nat.succ_le_of_lt hm))
      have hstored : Opcode.setLocal.Harmless F.chunk slot (some (scope.length + 3)) scope.length :=
        Opcode.harmless_frame .set (by omega)
      have hspared := heeds_pop hspare (by omega) (heeds_repeat hrepeats hhead)
      have hset := heeds_step hstore hstored fun next h => (List.mem_singleton.mp h).symm ▸ hspared
      have hsum := heeds_mild hadd rfl (show slot + 2 < scope.length + 4 by omega) hset
      have hback := heeds_mild hold rfl (show slot < scope.length + 2 by omega)
        (heeds_mild hone rfl (show slot < scope.length + 3 by omega) hsum)
      refine heeds_mild hcounter rfl (show slot < scope.length + 2 by omega) ?_
      refine heeds_mild hlimit rfl (show slot < scope.length + 3 by omega) ?_
      refine heeds_mild hless rfl (show slot + 2 < scope.length + 4 by omega) ?_
      refine heeds_branch (.inl rfl) hbranch (heeds_pop hfail (by omega) hleave) (heeds_pop hpop (by omega) ?_)
      refine heeds_mild hfresh rfl (show slot < scope.length + 2 by omega) ?_
      refine StmtCode.heeds body hbody (.inr (.inr hsecond)) (fun plan hplan => ?_) (hdrop.heeds (by omega) hback)
      cases hplan
      exact ⟨by change slot < scope.length + 2; omega, hleave, hback⟩
  | forever location body =>
    cases hcode with
    | forever _ hbody _ hdrop hrepeats =>
      refine heeds_turns fun m hm hhead => ?_
      have hback := heeds_repeat hrepeats hhead
      refine StmtCode.heeds body hbody hhides (fun plan hplan => ?_) (hdrop.heeds hlow hback)
      cases hplan
      exact ⟨hlow, hnext.of_le (Nat.succ_le_of_lt hm), hback⟩
  | leave =>
    cases hcode with
    | leave _ hdrop hjump =>
      have hexit := haround _ rfl
      exact hdrop.heeds hexit.room (heeds_jump hjump hexit.leave)
  | skip =>
    cases hcode with
    | skip _ hdrop hjump =>
      have hexit := haround _ rfl
      exact hdrop.heeds hexit.room (heeds_jump hjump hexit.skip)
  | giveBack location value =>
    cases hcode with
    | giveBackNil hhas hret => exact heeds_mild hhas rfl hlow (heeds_return hret (Nat.succ_lt_succ hlow))
    | giveBack hvalue hret => exact ExprCode.heeds _ hvalue hhides hlow (heeds_return hret (Nat.succ_lt_succ hlow))
  | disown location name resolution =>
    cases hcode with
    | disown hhas haccesses hpop =>
      exact heeds_access hhas haccesses hhides hlow (heeds_pop hpop (Nat.succ_lt_succ hlow) hnext)
  | function location declaration resolution =>
    cases hcode with
    | functionGlobal => exact hnext
    | functionLocal _ hclosure => exact hclosure.heeds (.inr hhides) hnext
termination_by structural stmt

theorem StmtsCode.heeds (stmts : List Stmt) {n p q : Nat} {loop : Option LoopPlan} {scope after : FrameScope}
    (hcode : StmtsCode globals F loop scope p stmts after q) (hhides : scope.Hides slot)
    (haround : ∀ plan ∈ loop, F.HeedsAround slot out n plan) (hnext : F.Heeds slot out n q) : F.Heeds slot out n p := by
  cases stmts with
  | nil =>
    cases hcode
    exact hnext
  | cons stmt rest =>
    cases hcode with
    | cons _ hstmt hrest =>
      refine StmtCode.heeds stmt hstmt hhides haround ?_
      exact StmtsCode.heeds rest hrest (hhides.grows hstmt.grows) haround hnext
termination_by structural stmts

theorem GuardedCode.heeds (arms : List Arm) {n p q : Nat} {loop : Option LoopPlan} {location : Location}
    {scope after : FrameScope} (hcode : GuardedCode globals F loop location scope p arms after q)
    (hhides : scope.Hides slot) (haround : ∀ plan ∈ loop, F.HeedsAround slot out n plan)
    (hnext : F.Heeds slot out n q) : F.Heeds slot out n p := by
  have hlow := hhides.lt
  cases arms with
  | nil =>
    cases hcode with
    | nil hhas => exact heeds_end hhas (Opcode.harmless_of_low (by decide) (.inl rfl)) rfl
  | cons arm rest =>
    obtain ⟨place, pattern, guard, body⟩ := arm
    cases hcode with
    | last hbody _ hdrop hjump =>
      exact StmtsCode.heeds body hbody hhides haround (hdrop.heeds hlow (heeds_jump hjump hnext))
    | cons _ hguard hbranch hpop hbody hlength hdrop hjump hfail hrest =>
      have hfirst := hhides.later hguard.later
      have hsecond := hhides.later ((hguard.later.grows.trans hbody.grows).dropped hlength)
      refine ExprCode.heeds _ hguard hhides hlow (heeds_branch (.inl rfl) hbranch
        (heeds_pop hfail (Nat.succ_lt_succ hlow) ?_) (heeds_pop hpop (Nat.succ_lt_succ hlow) ?_))
      · exact GuardedCode.heeds rest hrest hsecond haround hnext
      · exact StmtsCode.heeds body hbody hfirst haround (hdrop.heeds hlow (heeds_jump hjump hnext))
termination_by structural arms

theorem PatternedCode.heeds (arms : List Arm) {n p q subject : Nat} {loop : Option LoopPlan} {location : Location}
    {scope after : FrameScope} (hcode : PatternedCode globals F loop location subject scope p arms after q)
    (hhides : scope.Hides slot) (haround : ∀ plan ∈ loop, F.HeedsAround slot out n plan)
    (hnext : F.Heeds slot out n q) : F.Heeds slot out n p := by
  have hlow := hhides.lt
  cases arms with
  | nil =>
    cases hcode with
    | nil hhas => exact heeds_end hhas (Opcode.harmless_of_low (by decide) (.inl rfl)) rfl
  | cons arm rest =>
    obtain ⟨place, pattern, guard, body⟩ := arm
    have hbound (bound : FrameScope) : FrameScope.Hides (bound ++ scope) slot :=
      (FrameScope.hides_append hlow).mpr hhides
    have hplain {s : Nat} {middle : FrameScope}
        (harm : PlainArmCode globals F loop place subject scope p pattern body middle s q)
        (helse : middle.Hides slot → F.Heeds slot out n s) : F.Heeds slot out n p := by
      cases harm with
      | intro _ hmatch _ hbranch hpop hbody hlength hdrop hjump hfail =>
        have hmiddle := (FrameScope.hides_append (hlength ▸ hlow)).mp ((hbound _).grows hbody.grows)
        refine heeds_match hmatch hlow hbranch hpop hfail ?_ (helse hmiddle)
        exact StmtsCode.heeds body hbody (hbound _) haround (hdrop.heeds hlow (heeds_jump hjump hnext))
    cases hcode with
    | last _ harm => exact hplain harm fun _ => hnext
    | plain _ harm hrest => exact hplain harm fun hmiddle => PatternedCode.heeds rest hrest hmiddle haround hnext
    | guarded _ harm hrest =>
      cases harm with
      | intro _ hmatch _ hbranch hpop hguard htest hgo hbody hrebound hlength hdrop hjump hrefused hundo hgoOn hfail =>
        have htested := (hbound _).later hguard.later
        have hdone := htested.grows hbody.grows
        rw [← List.append_assoc, FrameScope.hides_append (hlength ▸ hlow)] at hdone
        have helse := PatternedCode.heeds rest hrest hdone haround hnext
        refine heeds_match hmatch hlow hbranch hpop hfail ?_ helse
        refine ExprCode.heeds _ hguard (hbound _) (by omega) (heeds_branch (.inl rfl) htest
          (heeds_pop hrefused (by omega) ?_) (heeds_pop hgo (by omega) ?_))
        · exact hundo.heeds hlow (heeds_jump hgoOn helse)
        · exact StmtsCode.heeds body hbody htested haround (hdrop.heeds hlow (heeds_jump hjump hnext))
termination_by structural arms

end

end Programs

end OwnScript
