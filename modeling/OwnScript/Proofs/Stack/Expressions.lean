import OwnScript.Proofs.Lowering.Scopes
import OwnScript.Proofs.Lowering.Variables
import OwnScript.Proofs.Stack.Profiles

/-!
Code that is laid out by the rules is safe. An expression leaves one value more on the frame, a statement
leaves its variables and nothing else, and a variable that a closure may have captured is closed wherever it
is dropped.
-/

namespace OwnScript

open Profile

variable {globals : GlobalTable} {F : Listing True} {arguments n : Nat}

/-- The slots outside the innermost loop that may have a cell there, and those of the variables in scope. -/
def heldWith (outer : Nat → Prop) (scope : FrameScope) (slot : Nat) : Prop :=
  outer slot ∨ scope.Held slot

theorem safe_plain {p height a b : Nat} {op : Opcode} {location : Location} {held : Nat → Prop}
    (hhas : F.Has p (some height) op a b location) (hplain : op.isPlain = true)
    (hheld : ∀ slot, held slot → slot + op.taken F.chunk a < height) (htaken : op.taken F.chunk a ≤ height)
    (hseen : op.seen ≤ height) (hslot : ∀ slot, op.slot? a = some slot → slot < height)
    (hnext : Safe globals F arguments n
      ⟨p + op.size, height - op.taken F.chunk a + op.given, held, none⟩) :
    Safe globals F arguments n ⟨p, height, held, none⟩ := by
  refine (safe_step hhas (fun slot h => ?_) (.plain hplain htaken hseen hslot (fun slot hhigh h => ?_) hnext)).fewer
  · have := hheld slot h
    omega
  · have := hheld slot h
    change height - op.taken F.chunk a ≤ slot at hhigh
    omega

/-- An operation that takes some of the values above the variables and gives one. -/
theorem safe_operation {p height taken a b : Nat} {op : Opcode} {location : Location} {held : Nat → Prop}
    (hhas : F.Has p (some (height + taken)) op a b location) (hplain : op.isPlain = true)
    (hheld : ∀ slot, held slot → slot < height) (htaken : op.taken F.chunk a = taken) (hseen : op.seen = 0)
    (hslot : ∀ slot, op.slot? a = some slot → slot < height) (hgiven : op.given = 1)
    (hnext : Safe globals F arguments n ⟨p + op.size, height + 1, held, none⟩) :
    Safe globals F arguments n ⟨p, height + taken, held, none⟩ := by
  refine safe_plain hhas hplain (fun slot h => ?_) (by omega) (by omega) (fun slot h => ?_) ?_
  · have := hheld slot h
    omega
  · have := hslot slot h
    omega
  · rw [htaken, hgiven, Nat.add_sub_cancel]
    exact hnext

/-- An operation that takes nothing and gives one value. -/
theorem safe_push {p height a b : Nat} {op : Opcode} {location : Location} {held : Nat → Prop}
    (hhas : F.Has p (some height) op a b location) (hplain : op.isPlain = true)
    (hheld : ∀ slot, held slot → slot < height) (htaken : op.taken F.chunk a = 0) (hseen : op.seen = 0)
    (hslot : ∀ slot, op.slot? a = some slot → slot < height) (hgiven : op.given = 1)
    (hnext : Safe globals F arguments n ⟨p + op.size, height + 1, held, none⟩) :
    Safe globals F arguments n ⟨p, height, held, none⟩ :=
  safe_operation hhas hplain hheld htaken hseen hslot hgiven hnext

/-- A value that nobody wants is dropped. -/
theorem safe_drop {p height a b : Nat} {op : Opcode} {location : Location} {held : Nat → Prop}
    (hop : op = .pop ∨ op = .printTop) (hhas : F.Has p (some (height + 1)) op a b location)
    (hheld : ∀ slot, held slot → slot < height)
    (hnext : Safe globals F arguments n ⟨p + 1, height, held, none⟩) :
    Safe globals F arguments n ⟨p, height + 1, held, none⟩ := by
  have hlow (slot : Nat) (h : held slot) : slot + 1 < height + 1 := Nat.succ_lt_succ (hheld slot h)
  rcases hop with rfl | rfl
  · exact safe_plain hhas rfl hlow (Nat.le_add_left ..) (Nat.zero_le _) (fun _ h => by cases h) hnext
  · exact safe_plain hhas rfl hlow (Nat.le_add_left ..) (Nat.zero_le _) (fun _ h => by cases h) hnext

/-- A value is stored and stays on top. -/
theorem safe_store {p height a b : Nat} {op : Opcode} {location : Location} {held : Nat → Prop}
    (hop : op = .setGlobal ∨ op = .setLocal ∨ op = .setUpvalue)
    (hhas : F.Has p (some (height + 1)) op a b location) (hheld : ∀ slot, held slot → slot < height)
    (hslot : ∀ slot, op.slot? a = some slot → slot < height)
    (hnext : Safe globals F arguments n ⟨p + 3, height + 1, held, none⟩) :
    Safe globals F arguments n ⟨p, height + 1, held, none⟩ := by
  have hlow (slot : Nat) (h : held slot) : slot + 0 < height + 1 := (hheld slot h).trans (Nat.lt_succ_self _)
  have hslot (slot : Nat) (h : op.slot? a = some slot) : slot < height + 1 :=
    (hslot slot h).trans (Nat.lt_succ_self _)
  rcases hop with rfl | rfl | rfl
  · exact safe_plain hhas rfl hlow (Nat.zero_le _) (Nat.le_add_left ..) hslot hnext
  · exact safe_plain hhas rfl hlow (Nat.zero_le _) (Nat.le_add_left ..) hslot hnext
  · exact safe_plain hhas rfl hlow (Nat.zero_le _) (Nat.le_add_left ..) hslot hnext

/-- Control goes on elsewhere. -/
theorem safe_jump {p height target : Nat} {location : Location} {held : Nat → Prop}
    (hjumps : F.Jumps p (some height) .jump location target) (hheld : ∀ slot, held slot → slot < height)
    (hnext : Safe globals F arguments n ⟨target, height, held, none⟩) :
    Safe globals F arguments n ⟨p, height, held, none⟩ := by
  obtain ⟨distance, hhas, rfl⟩ := hjumps
  exact (safe_step hhas hheld (.jump hnext)).fewer

/-- Control goes on elsewhere or here, and the value that decides stays on top. -/
theorem safe_branch {p height target : Nat} {op : Opcode} {location : Location} {held : Nat → Prop}
    (hop : op = .jumpIfFalse ∨ op = .jumpIfTrue)
    (hjumps : F.Jumps p (some (height + 1)) op location target)
    (hheld : ∀ slot, held slot → slot < height)
    (hthere : Safe globals F arguments n ⟨target, height + 1, held, none⟩)
    (hhere : Safe globals F arguments n ⟨p + 3, height + 1, held, none⟩) :
    Safe globals F arguments n ⟨p, height + 1, held, none⟩ := by
  obtain ⟨distance, hhas, rfl⟩ := hjumps
  have hlow (slot : Nat) (h : held slot) : slot < height + 1 := (hheld slot h).trans (Nat.lt_succ_self _)
  rcases hop with rfl | rfl
  · exact (safe_step hhas hlow (.ifFalse (Nat.succ_pos _) (fun _ => hthere) fun _ => hhere)).fewer
  · exact (safe_step hhas hlow (.ifTrue (Nat.succ_pos _) (fun _ => hthere) fun _ => hhere)).fewer

/-- A closure is pushed, and what it captures may have a cell from then on. -/
theorem ClosureCode.safe {height p : Nat} {scope after : FrameScope} {location : Location} {function : Function}
    (hcode : ClosureCode globals F height scope p location function after) {held before : Nat → Prop}
    (hheld : ∀ slot, after.Held slot → held slot) (hlow : ∀ slot, held slot → slot < height + 1)
    (hbefore : ∀ slot, before slot → held slot ∧ slot < height)
    (hnext : Safe globals F arguments n ⟨p + 3, height + 1, held, none⟩) :
    Safe globals F arguments n ⟨p, height, before, none⟩ := by
  cases hcode with
  | intro hhas hfound hprototype _ hcaptures =>
    refine (safe_step hhas (fun slot h => (hbefore slot h).2)
      (.closure hfound ⟨_, _, _, hprototype⟩ (fun capture hmem hlocal => ?_) (hnext.of_held ?_))).fewer
    · exact Nat.le_of_lt_succ (hlow _ (hheld _ (hcaptures capture hmem hlocal)))
    · rintro slot (h | ⟨capture, hmem, hlocal, rfl⟩)
      · exact (hbefore slot h).1
      · exact hheld _ (hcaptures capture hmem hlocal)

/-- What an access to a variable looks at is there. -/
theorem Accesses.slot_lt {scope : FrameScope} {resolution : Resolution} {how : Emit.Access} {op : Opcode} {a : Nat}
    (haccesses : Accesses globals scope resolution how op a) {slot : Nat} (hslot : op.slot? a = some slot) :
    slot < scope.length := by
  cases haccesses with
  | global =>
    cases how <;> cases hslot
  | frame _ _ hfound =>
    have hsame : some a = some slot := by
      cases how <;> exact hslot
    cases hsame
    exact FrameScope.slotOf?_lt hfound
  | captured =>
    cases how <;> cases hslot

theorem safe_load {height p a : Nat} {scope : FrameScope} {resolution : Resolution} {how : Emit.Access} {op : Opcode}
    {location : Location} (hhas : F.Has p (some height) op a 0 location)
    (haccesses : Accesses globals scope resolution how op a) (hhow : how ≠ .set) {held : Nat → Prop}
    (hlow : ∀ slot, held slot → slot < scope.length) (hroom : scope.length ≤ height)
    (hnext : Safe globals F arguments n ⟨p + 3, height + 1, held, none⟩) :
    Safe globals F arguments n ⟨p, height, held, none⟩ := by
  have hslot (slot : Nat) (h : op.slot? a = some slot) : slot < height :=
    (haccesses.slot_lt h).trans_le hroom
  have hheld (slot : Nat) (h : held slot) : slot < height := (hlow slot h).trans_le hroom
  cases haccesses with
  | global =>
    cases how with
    | set => exact absurd rfl hhow
    | get => exact safe_push hhas rfl hheld rfl rfl hslot rfl hnext
    | move => exact safe_push hhas rfl hheld rfl rfl hslot rfl hnext
  | frame =>
    cases how with
    | set => exact absurd rfl hhow
    | get => exact safe_push hhas rfl hheld rfl rfl hslot rfl hnext
    | move => exact safe_push hhas rfl hheld rfl rfl hslot rfl hnext
  | captured =>
    cases how with
    | set => exact absurd rfl hhow
    | get => exact safe_push hhas rfl hheld rfl rfl hslot rfl hnext
    | move => exact safe_push hhas rfl hheld rfl rfl hslot rfl hnext

theorem safe_assign {height p a : Nat} {scope : FrameScope} {resolution : Resolution} {op : Opcode}
    {location : Location} (hhas : F.Has p (some (height + 1)) op a 0 location)
    (haccesses : Accesses globals scope resolution .set op a) {held : Nat → Prop}
    (hlow : ∀ slot, held slot → slot < scope.length) (hroom : scope.length ≤ height)
    (hnext : Safe globals F arguments n ⟨p + 3, height + 1, held, none⟩) :
    Safe globals F arguments n ⟨p, height + 1, held, none⟩ := by
  have hop : op = .setGlobal ∨ op = .setLocal ∨ op = .setUpvalue := by
    cases haccesses with
    | global => exact .inl rfl
    | frame => exact .inr (.inl rfl)
    | captured => exact .inr (.inr rfl)
  exact safe_store hop hhas (fun slot h => (hlow slot h).trans_le hroom)
    (fun slot h => (haccesses.slot_lt h).trans_le hroom) hnext

theorem isPlain_unary (operator : UnaryOp) : operator.opcode.isPlain = true ∧
    (∀ chunk a, operator.opcode.taken chunk a = 1) ∧ operator.opcode.seen = 0 ∧
    (∀ a, operator.opcode.slot? a = none) ∧ operator.opcode.given = 1 ∧ operator.opcode.size = 1 := by
  cases operator <;> exact ⟨rfl, fun _ _ => rfl, rfl, fun _ => rfl, rfl, rfl⟩

theorem isPlain_binary {operator : BinaryOp} (hlogical : operator.isLogical = false) :
    operator.opcode.isPlain = true ∧ (∀ chunk a, operator.opcode.taken chunk a = 2) ∧
    operator.opcode.seen = 0 ∧ (∀ a, operator.opcode.slot? a = none) ∧ operator.opcode.given = 1 ∧
    operator.opcode.size = 1 := by
  cases operator <;> first | exact ⟨rfl, fun _ _ => rfl, rfl, fun _ => rfl, rfl, rfl⟩ | cases hlogical

theorem isPlain_loads {chunk : Chunk} {value : Literal} {op : Opcode} {a : Nat} (hloads : Loads chunk value op a) :
    op.isPlain = true ∧ (∀ chunk a, op.taken chunk a = 0) ∧ op.seen = 0 ∧ (∀ a, op.slot? a = none) ∧
    op.given = 1 := by
  cases hloads <;> exact ⟨rfl, fun _ _ => rfl, rfl, fun _ => rfl, rfl⟩

mutual

/-- The code of an expression pushes one value. -/
theorem ExprCode.safe (expr : Expr) {height p q : Nat} {scope after : FrameScope}
    (hcode : ExprCode globals F height scope p expr after q) {held : Nat → Prop}
    (hheld : ∀ slot, after.Held slot → held slot) (hlow : ∀ slot, held slot → slot < scope.length)
    (hroom : scope.length ≤ height) (hnext : Safe globals F arguments n ⟨q, height + 1, held, none⟩) :
    Safe globals F arguments n ⟨p, height, held, none⟩ := by
  have hheight (slot : Nat) (h : held slot) : slot < height := (hlow slot h).trans_le hroom
  cases expr with
  | absent =>
    cases hcode with
    | absent huntracked => exact absurd trivial huntracked
  | literal =>
    cases hcode with
    | literal hhas hloads =>
      obtain ⟨hplain, htaken, hseen, hslot, hgiven⟩ := isPlain_loads hloads
      exact safe_push hhas hplain hheight (htaken _ _) hseen (fun _ h => by rw [hslot] at h; cases h)
        hgiven hnext
  | name =>
    cases hcode with
    | name hhas haccesses => exact safe_load hhas haccesses (by decide) hlow hroom hnext
  | unary location operator operand =>
    cases hcode with
    | unary hoperand hhas =>
      obtain ⟨hplain, htaken, hseen, hslot, hgiven, hsize⟩ := isPlain_unary operator
      refine ExprCode.safe _ hoperand hheld hlow hroom ?_
      refine safe_operation hhas hplain hheight (htaken _ _) hseen (fun _ h => by rw [hslot] at h; cases h)
        hgiven ?_
      rw [hsize]
      exact hnext
  | binary location operator left right =>
    cases hcode with
    | binary hlogical hleft hright hhas =>
      obtain ⟨hplain, htaken, hseen, hslot, hgiven, hsize⟩ := isPlain_binary hlogical
      have hmiddle := hleft.later.length_eq
      refine ExprCode.safe _ hleft (fun slot h => hheld slot (h.later hright.later)) hlow hroom ?_
      refine ExprCode.safe _ hright hheld (hmiddle ▸ hlow) (by omega) ?_
      change Safe globals F arguments n ⟨_, height + 2, held, none⟩
      refine safe_operation hhas hplain hheight (htaken _ _) hseen (fun _ h => by rw [hslot] at h; cases h)
        hgiven ?_
      rw [hsize]
      exact hnext
    | logical hlogical hleft hjumps hpop hright =>
      have hop : operator.opcode = .jumpIfFalse ∨ operator.opcode = .jumpIfTrue := by
        cases operator <;> first | exact .inl rfl | exact .inr rfl | cases hlogical
      have hmiddle := hleft.later.length_eq
      refine ExprCode.safe _ hleft (fun slot h => hheld slot (h.later hright.later)) hlow hroom ?_
      refine safe_branch hop hjumps hheight hnext ?_
      refine safe_drop (.inl rfl) hpop hheight ?_
      exact ExprCode.safe _ hright hheld (hmiddle ▸ hlow) (by omega) hnext
  | call location callee arguments =>
    cases hcode with
    | call hcallee harguments hhas =>
      have hmiddle := hcallee.later.length_eq
      refine ExprCode.safe _ hcallee (fun slot h => hheld slot (h.later harguments.later)) hlow hroom ?_
      refine ExprsCode.safe _ harguments hheld (hmiddle ▸ hlow) (by omega) ?_
      have hlowest (slot : Nat) (h : held slot) : slot < height + 1 + arguments.length := by
        have := hheight slot h
        omega
      refine (safe_step hhas hlowest (.call (by simp only; omega) (fun slot hhigh h => ?_) ?_)).fewer
      · have := hheight slot h
        simp only at hhigh
        omega
      · simp only [Nat.add_sub_cancel]
        exact hnext
  | field =>
    cases hcode with
    | field hobject hhas =>
      refine ExprCode.safe _ hobject hheld hlow hroom ?_
      exact safe_operation hhas rfl hheight rfl rfl (fun _ h => by cases h) rfl hnext
  | index =>
    cases hcode with
    | index hobject hindex hhas =>
      have hmiddle := hobject.later.length_eq
      refine ExprCode.safe _ hobject (fun slot h => hheld slot (h.later hindex.later)) hlow hroom ?_
      refine ExprCode.safe _ hindex hheld (hmiddle ▸ hlow) (by omega) ?_
      change Safe globals F arguments n ⟨_, height + 2, held, none⟩
      exact safe_operation hhas rfl hheight rfl rfl (fun _ h => by cases h) rfl hnext
  | record location fields =>
    cases hcode with
    | record hfields hhas hshape =>
      refine FieldsCode.safe _ hfields hheld hlow hroom ?_
      refine safe_operation hhas rfl hheight ?_ rfl (fun _ h => by cases h) rfl hnext
      simp only [Opcode.taken, hshape, Option.elim_some, List.length_map]
  | array =>
    cases hcode with
    | array hitems hhas =>
      refine ExprsCode.safe _ hitems hheld hlow hroom ?_
      exact safe_operation hhas rfl hheight rfl rfl (fun _ h => by cases h) rfl hnext
  | lambda =>
    cases hcode with
    | lambda hclosure =>
      exact hclosure.safe hheld (fun slot h => (hheight slot h).trans (Nat.lt_succ_self _))
        (fun slot h => ⟨h, hheight slot h⟩) hnext
  | borrow =>
    cases hcode with
    | borrow htarget => exact ExprCode.safe _ htarget hheld hlow hroom hnext
  | move =>
    cases hcode with
    | move hhas haccesses => exact safe_load hhas haccesses (by decide) hlow hroom hnext
  | deref =>
    cases hcode with
    | deref hoperand => exact ExprCode.safe _ hoperand hheld hlow hroom hnext
termination_by structural expr

theorem ExprsCode.safe (exprs : List Expr) {height p q : Nat} {scope after : FrameScope}
    (hcode : ExprsCode globals F height scope p exprs after q) {held : Nat → Prop}
    (hheld : ∀ slot, after.Held slot → held slot) (hlow : ∀ slot, held slot → slot < scope.length)
    (hroom : scope.length ≤ height)
    (hnext : Safe globals F arguments n ⟨q, height + exprs.length, held, none⟩) :
    Safe globals F arguments n ⟨p, height, held, none⟩ := by
  cases exprs with
  | nil =>
    cases hcode with
    | nil => exact hnext
  | cons expr rest =>
    cases hcode with
    | cons hfirst hrest =>
      have hmiddle := hfirst.later.length_eq
      refine ExprCode.safe _ hfirst (fun slot h => hheld slot (h.later hrest.later)) hlow hroom ?_
      refine ExprsCode.safe _ hrest hheld (hmiddle ▸ hlow) (by omega) ?_
      rw [List.length_cons] at hnext
      rwa [Nat.add_assoc, Nat.add_comm 1]
termination_by structural exprs

theorem FieldsCode.safe (fields : List (String × Expr)) {height p q : Nat} {scope after : FrameScope}
    (hcode : FieldsCode globals F height scope p fields after q) {held : Nat → Prop}
    (hheld : ∀ slot, after.Held slot → held slot) (hlow : ∀ slot, held slot → slot < scope.length)
    (hroom : scope.length ≤ height)
    (hnext : Safe globals F arguments n ⟨q, height + fields.length, held, none⟩) :
    Safe globals F arguments n ⟨p, height, held, none⟩ := by
  cases fields with
  | nil =>
    cases hcode with
    | nil => exact hnext
  | cons field rest =>
    obtain ⟨name, value⟩ := field
    cases hcode with
    | cons hfirst hrest =>
      have hmiddle := hfirst.later.length_eq
      refine ExprCode.safe value hfirst (fun slot h => hheld slot (h.later hrest.later)) hlow hroom ?_
      refine FieldsCode.safe rest hrest hheld (hmiddle ▸ hlow) (by omega) ?_
      rw [List.length_cons] at hnext
      rwa [Nat.add_assoc, Nat.add_comm 1]
termination_by structural fields

end

end OwnScript
