import OwnScript.Proofs.Stack.Expressions

/-!
The code of statements, functions and scripts is safe. A statement leaves its variables on the frame and
nothing else. Inside a loop it may also leave for the end of the turn or of the loop, after it has dropped
the variables that were declared inside.
-/

namespace OwnScript

open Profile

variable {globals : GlobalTable} {F : Listing True} {arguments n : Nat}

/-- Variables are dropped, and those among them that may have a cell are closed. -/
theorem DropCode.safe {location : Location} {outside p q : Nat} {dropped outer : FrameScope}
    (hcode : DropCode F location outside dropped p q) (houter : outer.length = outside)
    {held kept : Nat → Prop} (hheld : ∀ slot, held slot → slot < outside ∨ FrameScope.Held (dropped ++ outer) slot)
    (hkept : ∀ slot, held slot → slot < outside → kept slot)
    (hnext : Safe globals F arguments n ⟨q, outside, kept, none⟩) :
    Safe globals F arguments n ⟨p, outside + dropped.length, held, none⟩ := by
  have hlow {inner : FrameScope} {slot : Nat} (h : slot < outside ∨ FrameScope.Held (inner ++ outer) slot) :
      slot < outside + inner.length := by
    rcases h with h | h
    · omega
    · have := h.lt
      rw [List.length_append] at this
      omega
  induction hcode generalizing held with
  | nil => exact hnext.of_held fun slot h => hkept slot h (hlow (hheld slot h))
  | @cons var rest p q hhas _ ih =>
    have hinner (slot : Nat) (h : held slot) (hne : slot ≠ outside + rest.length ∨ var.captured = false) :
        slot < outside ∨ FrameScope.Held (rest ++ outer) slot := by
      refine (hheld slot h).imp_right fun hscope => hscope.resolve_left fun htop => ?_
      change slot = (rest ++ outer).length ∧ _ at htop
      rw [List.length_append, houter, Nat.add_comm rest.length] at htop
      rcases hne with hne | hne
      · exact hne htop.1
      · rw [htop.2] at hne
        cases hne
    have hbelow (slot : Nat) (h : held slot) : slot < outside + rest.length + 1 := hlow (hheld slot h)
    cases hcaptured : var.captured with
    | true =>
      rw [FrameVar.dropOp, if_pos hcaptured] at hhas
      refine (safe_step hhas hbelow (.close (Nat.succ_pos _) ?_)).fewer
      exact ih (fun slot h => hinner slot h.1 (.inl h.2)) (fun slot h => hkept slot h.1) hnext
    | false =>
      rw [FrameVar.dropOp, if_neg (by simp [hcaptured])] at hhas
      refine safe_drop (.inl rfl) hhas (fun slot h => hlow (hinner slot h (.inr hcaptured))) ?_
      exact ih (fun slot h => hinner slot h (.inr hcaptured)) hkept hnext

/-- Where control may go from inside a loop, and which slots outside of the loop may have a cell there. -/
structure Within (globals : GlobalTable) (F : Listing True) (arguments n : Nat) (loop : Option LoopPlan)
    (outer : Nat → Prop) (scope after : FrameScope) : Prop where
  low : ∀ slot, outer slot → ∃ plan ∈ loop, slot < plan.outside
  room : ∀ plan ∈ loop, plan.outside ≤ scope.length
  held : ∀ plan ∈ loop, ∀ slot < plan.outside, after.Held slot → outer slot
  leave : ∀ plan ∈ loop, Safe globals F arguments n ⟨plan.leave, plan.outside, outer, none⟩
  skip : ∀ plan ∈ loop, Safe globals F arguments n ⟨plan.skip, plan.outside, outer, none⟩

namespace Within

variable {loop : Option LoopPlan} {outer : Nat → Prop} {scope after : FrameScope}

/-- Outside of every loop. -/
theorem none {scope after : FrameScope} : Within globals F arguments n none (fun _ => False) scope after where
  low _ h := h.elim
  room _ h := by cases h
  held _ h := by cases h
  leave _ h := by cases h
  skip _ h := by cases h

theorem lt (hwithin : Within globals F arguments n loop outer scope after) {slot : Nat} (houter : outer slot) :
    slot < scope.length := by
  obtain ⟨plan, hplan, hslot⟩ := hwithin.low slot houter
  exact hslot.trans_le (hwithin.room plan hplan)

/-- A part of a statement. -/
theorem part (hwithin : Within globals F arguments n loop outer scope after) {inner later : FrameScope}
    (hroom : scope.length ≤ inner.length)
    (hheld : ∀ slot < scope.length, later.Held slot → after.Held slot) :
    Within globals F arguments n loop outer inner later where
  low := hwithin.low
  room plan hplan := (hwithin.room plan hplan).trans hroom
  held plan hplan slot hslot h :=
    hwithin.held plan hplan slot hslot (hheld slot (hslot.trans_le (hwithin.room plan hplan)) h)
  leave := hwithin.leave
  skip := hwithin.skip

/-- A part of a statement in front of others. -/
theorem before (hwithin : Within globals F arguments n loop outer scope after) {inner later : FrameScope}
    (hroom : scope.length ≤ inner.length) (hgrows : later.Grows after) :
    Within globals F arguments n loop outer inner later :=
  hwithin.part hroom fun _ _ h => h.grows hgrows

/-- A part of a statement in front of the code that drops its variables. -/
theorem inside (hwithin : Within globals F arguments n loop outer scope after) {inner dropped : FrameScope}
    (hroom : scope.length ≤ inner.length) (hlength : after.length = scope.length) :
    Within globals F arguments n loop outer inner (dropped ++ after) :=
  hwithin.part hroom fun _ hslot h => (FrameScope.held_append (hlength ▸ hslot)).mp h

/-- The body of a loop: what is held around it at its end may be held from the start. -/
theorem turn {outside : Nat} (hlow : ∀ slot, outer slot → slot < outside) {leave skip : Nat}
    {inner dropped : FrameScope} (hlength : after.length = outside) (hroom : outside ≤ inner.length)
    (hleave : Safe globals F arguments n ⟨leave, outside, heldWith outer after, .none⟩)
    (hskip : Safe globals F arguments n ⟨skip, outside, heldWith outer after, .none⟩) :
    Within globals F arguments n (some ⟨outside, leave, skip⟩) (heldWith outer after) inner
      (dropped ++ after) where
  low slot h := ⟨_, rfl, h.elim (hlow slot) fun h => hlength ▸ h.lt⟩
  room _ hplan := by
    cases hplan
    exact hroom
  held _ hplan slot hslot h := by
    cases hplan
    exact .inr ((FrameScope.held_append (hlength ▸ hslot)).mp h)
  leave _ hplan := by
    cases hplan
    exact hleave
  skip _ hplan := by
    cases hplan
    exact hskip

end Within

theorem heldWith_lt {outer : Nat → Prop} {scope : FrameScope} {height : Nat}
    (hlow : ∀ slot, outer slot → slot < height) (hroom : scope.length ≤ height) (slot : Nat)
    (h : heldWith outer scope slot) : slot < height :=
  h.elim (hlow slot) fun h => h.lt.trans_le hroom

theorem heldWith_mono {outer : Nat → Prop} {before after : FrameScope} (hgrows : before.Grows after) (slot : Nat)
    (h : heldWith outer before slot) : heldWith outer after slot :=
  h.imp_right fun h => h.grows hgrows

/-- The code of an expression, seen from the statement around it. -/
theorem ExprCode.safeWith {expr : Expr} {height p q : Nat} {scope after : FrameScope} {outer : Nat → Prop}
    (hcode : ExprCode globals F height scope p expr after q) (hlow : ∀ slot, outer slot → slot < scope.length)
    (hroom : scope.length ≤ height)
    (hnext : Safe globals F arguments n ⟨q, height + 1, heldWith outer after, none⟩) :
    Safe globals F arguments n ⟨p, height, heldWith outer scope, none⟩ := by
  have hsafe := ExprCode.safe expr hcode (fun _ => .inr) (heldWith_lt hlow hcode.later.length_eq.le) hroom hnext
  exact hsafe.of_held (heldWith_mono hcode.later.grows)

/-- Control goes back, so that one operation more can be looked at. -/
theorem safe_repeat {p height target : Nat} {location : Location} {held : Nat → Prop}
    (hrepeats : F.Repeats p (some height) location target) (hheld : ∀ slot, held slot → slot < height)
    (hnext : Safe globals F arguments n ⟨target, height, held, none⟩) :
    Safe globals F arguments (n + 1) ⟨p, height, held, none⟩ := by
  obtain ⟨distance, hhas, htarget⟩ := hrepeats
  refine safe_step hhas hheld (.back ?_)
  have : p + 3 - distance = target := by omega
  simp only [this]
  exact hnext

/-- A loop is safe if each of its turns is, provided that control goes back safely. -/
theorem safe_turns {head : Profile}
    (hturn : ∀ m < n, Safe globals F arguments m head → Safe globals F arguments (m + 1) head) :
    Safe globals F arguments n head := by
  induction n with
  | zero => trivial
  | succ n ih => exact hturn n (Nat.lt_succ_self n) (ih fun m hm => hturn m (hm.trans (Nat.lt_succ_self n)))

theorem safe_nil {p height : Nat} {location : Location} {held : Nat → Prop}
    (hhas : F.Has p (some height) .pushNil 0 0 location) (hheld : ∀ slot, held slot → slot < height)
    (hnext : Safe globals F arguments n ⟨p + 1, height + 1, held, none⟩) :
    Safe globals F arguments n ⟨p, height, held, none⟩ :=
  safe_push hhas rfl hheld rfl rfl (fun _ h => by cases h) rfl hnext

theorem safe_local {p height slot : Nat} {location : Location} {held : Nat → Prop}
    (hhas : F.Has p (some height) .getLocal slot 0 location) (hheld : ∀ slot, held slot → slot < height)
    (hslot : slot < height) (hnext : Safe globals F arguments n ⟨p + 3, height + 1, held, none⟩) :
    Safe globals F arguments n ⟨p, height, held, none⟩ := by
  have hslot (other : Nat) (h : Opcode.slot? slot .getLocal = some other) : other < height := by
    cases h
    exact hslot
  exact safe_push hhas rfl hheld rfl rfl hslot rfl hnext

/-- A match binds as many values as the pattern has variables. -/
theorem length_boundScope (pattern : Option Pattern) :
    (boundScope (pattern.elim [] Pattern.vars)).length = (pattern.elim .any Pattern.toMatcher).bindingCount := by
  rw [boundScope, List.length_reverse, List.length_map]
  cases pattern with
  | none => rfl
  | some pattern => exact pattern.bindingCount_toMatcher.symm

/-- Matching the arguments binds as many values as the parameters have variables inside. -/
theorem bindings_parameters (parameters : List Pattern) :
    Matcher.bindings (parameters.map parameterMatcher) = (parameterVariables parameters).length := by
  induction parameters with
  | nil => rfl
  | cons pattern rest ih =>
    have hfirst : (parameterMatcher pattern).bindingCount = (parameterVariables [pattern]).length := by
      cases pattern with
      | bind => rfl
      | wildcard => rfl
      | literal => exact (Pattern.bindingCount_toMatcher _).trans (by simp [parameterVariables])
      | destructure => exact (Pattern.bindingCount_toMatcher _).trans (by simp [parameterVariables])
    have hsplit : parameterVariables (pattern :: rest) = parameterVariables [pattern] ++ parameterVariables rest := by
      simp [parameterVariables]
    rw [hsplit, List.length_append, ← ih, ← hfirst]
    rfl

/-- A pattern is tried: if it matches, its variables are on the frame, and otherwise nothing is. -/
theorem safe_match {p target slot a height bound : Nat} {place : Location} {matcher : Matcher}
    {held : Nat → Prop} (hhas : F.Has p (some height) .matchValue a slot place)
    (hmatcher : F.chunk.matchers[a]? = some matcher) (hbound : bound = matcher.bindingCount)
    (hjumps : F.Jumps (p + 5) .none .jumpIfFalse place (target + 3))
    (hpop : F.Has (p + 8) (some (height + bound + 1)) .pop 0 0 place)
    (hfail : F.Has (target + 3) (some (height + 1)) .pop 0 0 place)
    (hslot : slot < height) (hheld : ∀ slot, held slot → slot < height)
    (hmatches : Safe globals F arguments n ⟨p + 9, height + bound, held, none⟩)
    (hfails : Safe globals F arguments n ⟨target + 4, height, held, none⟩) :
    Safe globals F arguments n ⟨p, height, held, none⟩ := by
  subst hbound
  have hmore (extra slot : Nat) (h : held slot) : slot < height + extra := (hheld slot h).trans_le (Nat.le_add_right ..)
  have hthen : Safe globals F arguments n ⟨p + 5 + 3, height + matcher.bindingCount + 1, held, none⟩ :=
    safe_drop (.inl rfl) hpop (hmore _) hmatches
  have helse := safe_drop (.inl rfl) hfail hheld hfails
  obtain ⟨distance, hbranch, htarget⟩ := hjumps
  rw [← htarget] at helse
  refine (safe_step hhas hheld (.matchValue hmatcher hslot ?_ ?_)).fewer
  · refine (safe_step_any hbranch (hmore (_ + 1)) (.ifFalse (Nat.succ_pos _) (fun h => ?_) fun _ => hthen)).fewer
    exact absurd rfl h
  · refine (safe_step_any hbranch (hmore 1) (.ifFalse (Nat.succ_pos _) (fun _ => helse) fun h => ?_)).fewer
    exact absurd rfl h

/-- The value on top is given back. -/
theorem safe_return {p height : Nat} {location : Location} {held : Nat → Prop}
    (hhas : F.Has p (some (height + 1)) .ret 0 0 location) (hheld : ∀ slot, held slot → slot < height) :
    Safe globals F arguments n ⟨p, height + 1, held, none⟩ := by
  refine (safe_step hhas (fun slot h => (hheld slot h).trans (Nat.lt_succ_self _))
    (.ret (Nat.succ_pos _) fun h => ?_)).fewer
  exact Nat.lt_irrefl _ (hheld _ h)

/-- The variables inside a loop are dropped, and control goes to one of the exits. -/
theorem DropCode.safe_exit {plan : LoopPlan} {dropped outside : FrameScope} {p q target : Nat} {location : Location}
    (hcode : DropCode F location plan.outside dropped p q) (houtside : outside.length = plan.outside)
    (hjump : F.Jumps q (some plan.outside) .jump location target) {outer : Nat → Prop}
    (hwithin : Within globals F arguments n (some plan) outer (dropped ++ outside) (dropped ++ outside))
    (hnext : Safe globals F arguments n ⟨target, plan.outside, outer, none⟩) :
    Safe globals F arguments n
      ⟨p, (dropped ++ outside).length, heldWith outer (dropped ++ outside), none⟩ := by
  have hlow (slot : Nat) (h : outer slot) : slot < plan.outside := by
    obtain ⟨_, hplan, hslot⟩ := hwithin.low slot h
    cases hplan
    exact hslot
  rw [List.length_append, houtside, Nat.add_comm]
  refine hcode.safe houtside (fun slot h => h.imp_left (hlow slot)) (fun slot h hslot => ?_)
    (safe_jump hjump hlow hnext)
  exact h.elim id (hwithin.held plan rfl slot hslot)

mutual

/-- The code of a statement leaves its variables on the frame. -/
theorem StmtCode.safe (stmt : Stmt) {n : Nat} {loop : Option LoopPlan} {outer : Nat → Prop} {p q : Nat}
    {scope after : FrameScope} (hcode : StmtCode globals F loop scope p stmt after q)
    (hwithin : Within globals F arguments n loop outer scope after)
    (hnext : Safe globals F arguments n ⟨q, after.length, heldWith outer after, none⟩) :
    Safe globals F arguments n ⟨p, scope.length, heldWith outer scope, none⟩ := by
  have hlow (slot : Nat) (h : outer slot) : slot < scope.length := hwithin.lt h
  cases stmt with
  | absent =>
    cases hcode
    exact hnext
  | declare =>
    cases hcode with
    | declareUndefined => exact hnext
    | declareGlobal _ _ _ hinitial hset hpop =>
      have hlength := hinitial.later.length_eq
      rw [hlength] at hnext
      refine hinitial.safeWith hlow le_rfl ?_
      have hslot (slot other : Nat) (h : Opcode.slot? slot .setGlobal = some other) : other < scope.length := by
        cases h
      refine safe_store (.inl rfl) hset (heldWith_lt hlow hlength.le) (hslot _) ?_
      exact safe_drop (.inl rfl) hpop (heldWith_lt hlow hlength.le) hnext
    | declareEmpty _ hhas =>
      refine safe_nil hhas (heldWith_lt hlow le_rfl) ?_
      exact hnext.of_held fun _ h => h.imp_right .inr
    | declareLocal _ hinitial =>
      refine hinitial.safeWith hlow le_rfl ?_
      rw [List.length_cons, hinitial.later.length_eq] at hnext
      exact hnext.of_held fun _ h => h.imp_right .inr
  | assign =>
    cases hcode with
    | assign hvalue hset haccesses hpop =>
      have hlength := hvalue.later.length_eq
      rw [hlength] at hnext
      refine hvalue.safeWith hlow le_rfl ?_
      refine safe_assign hset haccesses (heldWith_lt (hlength ▸ hlow) le_rfl) hlength.le ?_
      exact safe_drop (.inl rfl) hpop (heldWith_lt hlow hlength.le) hnext
  | assignField =>
    cases hcode with
    | assignField hobject hvalue hhas _ hpop =>
      have hfirst := hobject.later.length_eq
      have hsecond := hvalue.later.length_eq.trans hfirst
      rw [hsecond] at hnext
      refine hobject.safeWith hlow le_rfl ?_
      refine hvalue.safeWith (hfirst ▸ hlow) (by omega) ?_
      change Safe globals F arguments n ⟨_, scope.length + 2, _, none⟩
      refine safe_operation hhas rfl (heldWith_lt hlow hsecond.le) rfl rfl (fun _ h => by cases h) rfl ?_
      exact safe_drop (.inl rfl) hpop (heldWith_lt hlow hsecond.le) hnext
  | assignIndex =>
    cases hcode with
    | assignIndex hobject hindex hvalue hhas hpop =>
      have hfirst := hobject.later.length_eq
      have hsecond := hindex.later.length_eq.trans hfirst
      have hthird := hvalue.later.length_eq.trans hsecond
      rw [hthird] at hnext
      refine hobject.safeWith hlow le_rfl ?_
      refine hindex.safeWith (hfirst ▸ hlow) (by omega) ?_
      refine hvalue.safeWith (hsecond ▸ hlow) (by omega) ?_
      change Safe globals F arguments n ⟨_, scope.length + 3, _, none⟩
      refine safe_operation hhas rfl (heldWith_lt hlow hthird.le) rfl rfl (fun _ h => by cases h) rfl ?_
      exact safe_drop (.inl rfl) hpop (heldWith_lt hlow hthird.le) hnext
  | evaluate =>
    cases hcode with
    | evaluate hexpression hpop =>
      have hlength := hexpression.later.length_eq
      rw [hlength] at hnext
      refine hexpression.safeWith hlow le_rfl ?_
      exact safe_drop (.inl rfl) hpop (heldWith_lt hlow hlength.le) hnext
  | print =>
    cases hcode with
    | print hexpression hprint =>
      have hlength := hexpression.later.length_eq
      rw [hlength] at hnext
      refine hexpression.safeWith hlow le_rfl ?_
      exact safe_drop (.inr rfl) hprint (heldWith_lt hlow hlength.le) hnext
  | block location body =>
    cases hcode with
    | block hbody hlength hdrop =>
      refine StmtsCode.safe body hbody (hwithin.inside le_rfl hlength) ?_
      rw [List.length_append, hlength, Nat.add_comm]
      refine hdrop.safe hlength (fun slot h => h.imp_left (hlow slot)) (fun slot h hslot => ?_) (hlength ▸ hnext)
      exact h.imp_right (FrameScope.held_append (hlength ▸ hslot)).mp
  | ifElse location condition yes no =>
    cases hcode with
    | @ifElse _ _ _ first _ _ _ _ _ _ _ _ _ _ hcondition hbranch hpop _ hyes hsame hjump helse _ hno hlast _ =>
      have hfirst := hcondition.later.length_eq
      have hsecond := hsame trivial
      have hafter := (hlast trivial).trans hsecond
      rw [hsecond] at hjump helse
      have hyesLater := (StmtCode.grows yes hyes).later (hsecond.trans hfirst.symm)
      have hnoLater := (StmtCode.grows no hno).later (hafter.trans hsecond.symm)
      have hlowFirst (slot : Nat) (h : heldWith outer first slot) : slot < scope.length :=
        heldWith_lt hlow hfirst.le slot h
      have hsafeNo := StmtCode.safe no hno (hwithin.before hsecond.ge (FrameScope.Later.refl _).grows) hnext
      refine hcondition.safeWith hlow le_rfl ?_
      refine safe_branch (.inl rfl) hbranch hlowFirst (safe_drop (.inl rfl) helse hlowFirst ?_)
        (safe_drop (.inl rfl) hpop hlowFirst ?_)
      · rw [hsecond] at hsafeNo
        exact hsafeNo.of_held (heldWith_mono hyesLater.grows)
      · rw [← hfirst]
        refine StmtCode.safe yes hyes (hwithin.before hfirst.ge hnoLater.grows) ?_
        rw [hsecond]
        rw [hafter] at hnext
        exact safe_jump hjump (heldWith_lt hlow hsecond.le) (hnext.of_held (heldWith_mono hnoLater.grows))
  | cond location scrutinee arms =>
    cases hcode with
    | condGuards harms => exact GuardedCode.safe arms harms hwithin hnext
    | @condPatterns _ _ _ middle after hidden _ _ r _ _ _ _ _ hscrutinee harms hlength hdrop =>
      have hmiddle := hscrutinee.later.length_eq
      refine hscrutinee.safeWith hlow le_rfl ?_
      have hinside : Within globals F arguments n loop outer (⟨none, false⟩ :: middle) ([hidden] ++ after) :=
        hwithin.inside (by rw [List.length_cons, hmiddle]; omega) hlength
      have harmsSafe := PatternedCode.safe arms harms (by rw [List.length_cons, hmiddle]; omega) hinside ?_
      · rw [List.length_cons, hmiddle] at harmsSafe
        exact harmsSafe.of_held fun _ h => h.imp_right .inr
      · change Safe globals F arguments n ⟨r, after.length + 1, _, none⟩
        rw [hlength]
        refine hdrop.safe hlength (fun slot h => h.imp_left (hlow slot)) (fun slot h hslot => ?_) (hlength ▸ hnext)
        change outer slot ∨ FrameScope.Held ([hidden] ++ after) slot at h
        exact h.imp_right (FrameScope.held_append (hlength ▸ hslot)).mp
  | whileLoop location condition body =>
    cases hcode with
    | @whileLoop _ _ _ first dropped after _ q r s _ _ _ hcondition hbranch hpop _ hbody hlength hdrop hrepeat hend =>
      have hfirst := hcondition.later.length_eq
      have hgrows := (StmtCode.grows body hbody).dropped (hlength.trans hfirst.symm)
      have hlowAfter (slot : Nat) (h : heldWith outer after slot) : slot < scope.length :=
        heldWith_lt hlow hlength.le slot h
      rw [hlength] at hnext
      have hloop : Safe globals F arguments n ⟨p, scope.length, heldWith outer after, none⟩ := by
        refine safe_turns fun m hm hhead => ?_
        have hleave := hnext.of_le (Nat.succ_le_of_lt hm)
        have hskip := safe_repeat hrepeat hlowAfter hhead
        refine ExprCode.safe condition hcondition (fun _ h => .inr (h.later hgrows)) hlowAfter le_rfl ?_
        refine safe_branch (.inl rfl) hbranch hlowAfter (safe_drop (.inl rfl) hend hlowAfter hleave)
          (safe_drop (.inl rfl) hpop hlowAfter ?_)
        have hbodySafe := StmtCode.safe body hbody (.turn hlow hlength hfirst.ge hleave hskip) ?_
        · rw [hfirst] at hbodySafe
          exact hbodySafe.of_held fun _ => .inl
        · rw [List.length_append, hlength, Nat.add_comm]
          refine hdrop.safe hlength (fun slot h => h.imp_left (hlowAfter slot)) (fun slot h hslot => ?_) hskip
          exact h.elim id fun h => .inr ((FrameScope.held_append (hlength ▸ hslot)).mp h)
      exact hloop.of_held (heldWith_mono (hcondition.later.trans hgrows).grows)
  | forLoop location counter binding start bound body =>
    cases hcode with
    | @forLoop _ _ _ first second dropped hidden after _ q r s t u a _ _ _ _ _ _ hstart hbound hget hlimit
        hless hbranch hpop hcounter _ hbody hhidden hlength hdrop hadvance hone _ hadd hset hdone hrepeat hend
        hdropHidden =>
      have hfirst := hstart.later.length_eq
      have hsecond : second.length = scope.length + 1 := by
        rw [hbound.later.length_eq, List.length_cons, hfirst]
      have hkept : (hidden ++ after).length = scope.length + 2 := by
        rw [List.length_append, hhidden, hlength, Nat.add_comm]
      have hgrows := (StmtCode.grows body hbody).of_cons
      have hlater : FrameScope.Later (⟨none, false⟩ :: second) (hidden ++ after) :=
        hgrows.dropped (by rw [hkept, List.length_cons, hsecond])
      have hlow' (slot : Nat) (h : outer slot) : slot < scope.length + 2 := (hlow slot h).trans (by omega)
      have hheld (slot : Nat) (h : heldWith outer (hidden ++ after) slot) : slot < scope.length + 2 :=
        heldWith_lt hlow' hkept.le slot h
      have hheld' (slot : Nat) (h : heldWith outer (hidden ++ after) slot) : slot < scope.length + 3 :=
        (hheld slot h).trans (Nat.lt_succ_self _)
      have hleave : Safe globals F arguments n ⟨t + 15, scope.length + 2, heldWith outer (hidden ++ after), none⟩ := by
        rw [← hhidden]
        refine hdropHidden.safe hlength (fun slot h => h.imp_left (hlow slot)) (fun slot h hslot => ?_)
          (hlength ▸ hnext)
        exact h.imp_right (FrameScope.held_append (hlength ▸ hslot)).mp
      have hloop : Safe globals F arguments n ⟨r, scope.length + 2, heldWith outer (hidden ++ after), none⟩ := by
        refine safe_turns fun m hm hhead => ?_
        have hleave := hleave.of_le (Nat.succ_le_of_lt hm)
        have hskip : Safe globals F arguments (m + 1)
            ⟨t, scope.length + 2, heldWith outer (hidden ++ after), none⟩ := by
          refine safe_local hadvance hheld (by omega) ?_
          refine safe_push hone rfl hheld' rfl rfl (fun _ h => by cases h) rfl ?_
          change Safe globals F arguments (m + 1) ⟨_, scope.length + 2 + 2, _, none⟩
          refine safe_operation hadd rfl hheld rfl rfl (fun _ h => by cases h) rfl ?_
          refine safe_store (.inr (.inl rfl)) hset hheld (fun slot h => ?_) ?_
          · cases h
            omega
          · exact safe_drop (.inl rfl) hdone hheld (safe_repeat hrepeat hheld hhead)
        refine safe_local hget hheld (by omega) ?_
        refine safe_local hlimit hheld' (by omega) ?_
        change Safe globals F arguments (m + 1) ⟨_, scope.length + 2 + 2, _, none⟩
        refine safe_operation hless rfl hheld rfl rfl (fun _ h => by cases h) rfl ?_
        refine safe_branch (.inl rfl) hbranch hheld (safe_drop (.inl rfl) hend hheld hleave)
          (safe_drop (.inl rfl) hpop hheld (safe_local hcounter hheld (by omega) ?_))
        have hbodySafe := StmtCode.safe body hbody
          (.turn hlow' hkept (by simp only [List.length_cons, hsecond]; omega) hleave hskip) ?_
        · simp only [List.length_cons, hsecond] at hbodySafe
          exact hbodySafe.of_held fun _ => .inl
        · rw [List.length_append, hkept, Nat.add_comm]
          refine hdrop.safe hkept (fun slot h => h.imp_left (hheld slot)) (fun slot h hslot => ?_) hskip
          exact h.elim id fun h => .inr ((FrameScope.held_append (hkept ▸ hslot)).mp h)
      refine hstart.safeWith hlow le_rfl ?_
      have hinner (slot : Nat) (h : outer slot) : slot < List.length (⟨none, false⟩ :: first : FrameScope) := by
        rw [List.length_cons, hfirst]
        exact (hlow slot h).trans (Nat.lt_succ_self _)
      have hboundSafe := hbound.safeWith hinner (by rw [List.length_cons, hfirst]) (hloop.of_held fun slot h => ?_)
      · exact hboundSafe.of_held fun _ h => h.imp_right .inr
      · exact h.imp_right fun h => FrameScope.Held.later hlater (.inr h)
  | forever location body =>
    cases hcode with
    | @forever _ _ _ dropped after _ r s _ _ _ hbody hlength hdrop hrepeat =>
      have hgrows := (StmtCode.grows body hbody).dropped hlength
      have hlowAfter (slot : Nat) (h : heldWith outer after slot) : slot < scope.length :=
        heldWith_lt hlow hlength.le slot h
      rw [hlength] at hnext
      have hloop : Safe globals F arguments n ⟨p, scope.length, heldWith outer after, none⟩ := by
        refine safe_turns fun m hm hhead => ?_
        have hleave := hnext.of_le (Nat.succ_le_of_lt hm)
        have hskip := safe_repeat hrepeat hlowAfter hhead
        have hbodySafe := StmtCode.safe body hbody (.turn hlow hlength le_rfl hleave hskip) ?_
        · exact hbodySafe.of_held fun _ => .inl
        · rw [List.length_append, hlength, Nat.add_comm]
          refine hdrop.safe hlength (fun slot h => h.imp_left (hlowAfter slot)) (fun slot h hslot => ?_) hskip
          exact h.elim id fun h => .inr ((FrameScope.held_append (hlength ▸ hslot)).mp h)
      exact hloop.of_held (heldWith_mono hgrows.grows)
  | leave =>
    cases hcode with
    | leave houter hdrop hjump => exact hdrop.safe_exit houter hjump hwithin (hwithin.leave _ rfl)
  | skip =>
    cases hcode with
    | skip houter hdrop hjump => exact hdrop.safe_exit houter hjump hwithin (hwithin.skip _ rfl)
  | giveBack =>
    cases hcode with
    | giveBackNil hpush hret =>
      refine safe_nil hpush (heldWith_lt hlow le_rfl) ?_
      exact safe_return hret (heldWith_lt hlow le_rfl)
    | giveBack hvalue hret =>
      refine hvalue.safeWith hlow le_rfl ?_
      exact safe_return hret (heldWith_lt hlow hvalue.later.length_eq.le)
  | disown =>
    cases hcode with
    | disown hhas haccesses hpop =>
      refine safe_load hhas haccesses (by decide) (heldWith_lt hlow le_rfl) le_rfl ?_
      exact safe_drop (.inl rfl) hpop (heldWith_lt hlow le_rfl) hnext
  | function location declaration resolution =>
    cases hcode with
    | functionGlobal => exact hnext
    | functionLocal _ hclosure =>
      have hlater : FrameScope.Later (⟨resolution.binding, false⟩ :: scope) after := by
        cases hclosure with
        | intro _ _ _ hlater => exact hlater
      have hlength : after.length = scope.length + 1 := hlater.length_eq
      rw [hlength] at hnext
      refine hclosure.safe (fun _ => .inr) (heldWith_lt (fun slot h => ?_) hlength.le) (fun slot h => ?_) hnext
      · exact (hlow slot h).trans (Nat.lt_succ_self _)
      · exact ⟨h.imp_right fun h => h.grows hlater.grows.of_cons, heldWith_lt hlow le_rfl slot h⟩
termination_by structural stmt

theorem StmtsCode.safe (stmts : List Stmt) {n : Nat} {loop : Option LoopPlan} {outer : Nat → Prop} {p q : Nat}
    {scope after : FrameScope} (hcode : StmtsCode globals F loop scope p stmts after q)
    (hwithin : Within globals F arguments n loop outer scope after)
    (hnext : Safe globals F arguments n ⟨q, after.length, heldWith outer after, none⟩) :
    Safe globals F arguments n ⟨p, scope.length, heldWith outer scope, none⟩ := by
  cases stmts with
  | nil =>
    cases hcode
    exact hnext
  | cons stmt rest =>
    cases hcode with
    | cons _ hfirst hrest =>
      have hgrows := StmtsCode.grows rest hrest
      refine StmtCode.safe stmt hfirst (hwithin.before le_rfl hgrows) ?_
      have hroom := (StmtCode.grows stmt hfirst).length_le
      exact StmtsCode.safe rest hrest (hwithin.before hroom (FrameScope.Later.refl _).grows) hnext
termination_by structural stmts

theorem GuardedCode.safe (arms : List Arm) {n : Nat} {loop : Option LoopPlan} {outer : Nat → Prop}
    {location : Location} {p q : Nat} {scope after : FrameScope}
    (hcode : GuardedCode globals F loop location scope p arms after q)
    (hwithin : Within globals F arguments n loop outer scope after)
    (hnext : Safe globals F arguments n ⟨q, after.length, heldWith outer after, none⟩) :
    Safe globals F arguments n ⟨p, scope.length, heldWith outer scope, none⟩ := by
  have hlow (slot : Nat) (h : outer slot) : slot < scope.length := hwithin.lt h
  cases arms with
  | nil =>
    cases hcode with
    | nil hhas => exact (safe_step hhas (heldWith_lt hlow le_rfl) .noMatchingArm).fewer
  | cons arm rest =>
    obtain ⟨place, pattern, guard, body⟩ := arm
    cases hcode with
    | last hbody hlength hdrop hjump =>
      rw [hlength] at hnext
      refine StmtsCode.safe body hbody (hwithin.inside le_rfl hlength) ?_
      rw [List.length_append, hlength, Nat.add_comm]
      refine hdrop.safe hlength (fun slot h => h.imp_left (hlow slot)) (fun slot h hslot => ?_)
        (safe_jump hjump (heldWith_lt hlow hlength.le) hnext)
      exact h.imp_right (FrameScope.held_append (hlength ▸ hslot)).mp
    | @cons _ _ _ _ _ first dropped second _ _ _ _ _ _ _ _ _ _ _ hguard hbranch hpop hbody hlength hdrop hjump
        hfail hrest =>
      have hfirst := hguard.later.length_eq
      have hrestLater := GuardedCode.later rest hrest
      have hlast := hrestLater.length_eq.trans hlength
      have hbodyLater := (StmtsCode.grows body hbody).dropped (hlength.trans hfirst.symm)
      have hrestSafe := GuardedCode.safe rest hrest (hwithin.before hlength.ge (FrameScope.Later.refl _).grows) hnext
      rw [hlength] at hrestSafe
      rw [hlast] at hnext
      have hlowFirst (slot : Nat) (h : heldWith outer first slot) : slot < scope.length :=
        heldWith_lt hlow hfirst.le slot h
      refine hguard.safeWith hlow le_rfl ?_
      refine safe_branch (.inl rfl) hbranch hlowFirst (safe_drop (.inl rfl) hfail hlowFirst ?_)
        (safe_drop (.inl rfl) hpop hlowFirst ?_)
      · exact hrestSafe.of_held (heldWith_mono hbodyLater.grows)
      · rw [← hfirst]
        have hwithinArm : Within globals F arguments n loop outer scope second :=
          hwithin.before le_rfl hrestLater.grows
        refine StmtsCode.safe body hbody (hwithinArm.inside hfirst.ge hlength) ?_
        rw [List.length_append, hlength, Nat.add_comm]
        refine hdrop.safe hlength (fun slot h => h.imp_left (hlow slot)) (fun slot h hslot => ?_)
          (safe_jump hjump (heldWith_lt hlow hlast.le) hnext)
        exact h.imp_right fun h => ((FrameScope.held_append (hlength ▸ hslot)).mp h).later hrestLater
termination_by structural arms

theorem PatternedCode.safe (arms : List Arm) {n : Nat} {loop : Option LoopPlan} {outer : Nat → Prop}
    {location : Location} {slot p q : Nat} {scope after : FrameScope}
    (hcode : PatternedCode globals F loop location slot scope p arms after q) (hslot : slot < scope.length)
    (hwithin : Within globals F arguments n loop outer scope after)
    (hnext : Safe globals F arguments n ⟨q, after.length, heldWith outer after, none⟩) :
    Safe globals F arguments n ⟨p, scope.length, heldWith outer scope, none⟩ := by
  have hlow (slot : Nat) (h : outer slot) : slot < scope.length := hwithin.lt h
  cases arms with
  | nil =>
    cases hcode with
    | nil hhas => exact (safe_step hhas (heldWith_lt hlow le_rfl) .noMatchingArm).fewer
  | cons arm rest =>
    obtain ⟨place, pattern, guard, body⟩ := arm
    have hheld (slot : Nat) (h : heldWith outer scope slot) : slot < scope.length :=
      heldWith_lt hlow le_rfl slot h
    -- Behind an arm the variables of the arm are gone, but those around it may have been captured.
    have hplain {s t : Nat} {middle : FrameScope} (hmiddle : middle.Later after)
        (harm : PlainArmCode globals F loop place slot scope p pattern body middle s t)
        (hthen : Safe globals F arguments n ⟨t, scope.length, heldWith outer middle, none⟩)
        (helse : Safe globals F arguments n ⟨s, scope.length, heldWith outer middle, none⟩) :
        Safe globals F arguments n ⟨p, scope.length, heldWith outer scope, none⟩ := by
      cases harm with
      | @intro _ _ _ _ _ bound dropped _ _ _ _ _ _ _ _ hbound hmatch hmatcher hbranch hpop hbody hlength hdrop
          hjump hfail =>
        have hgrows : FrameScope.Grows scope (bound ++ scope) := ⟨bound, scope, rfl, .refl _⟩
        have hlater := (hgrows.trans (StmtsCode.grows body hbody)).dropped hlength
        have hroom : (bound ++ scope).length = scope.length + bound.length := by
          rw [List.length_append, Nat.add_comm]
        subst hbound
        refine safe_match hmatch hmatcher (length_boundScope pattern) hbranch hpop hfail hslot hheld ?_
          (helse.of_held (heldWith_mono hlater.grows))
        have hwithinArm : Within globals F arguments n loop outer scope middle :=
          hwithin.before le_rfl hmiddle.grows
        have hbodySafe := StmtsCode.safe body hbody (hwithinArm.inside (by omega) hlength) ?_
        · rw [hroom] at hbodySafe
          exact hbodySafe.of_held (heldWith_mono hgrows)
        · rw [List.length_append, hlength, Nat.add_comm]
          refine hdrop.safe hlength (fun slot h => h.imp_left (hlow slot)) (fun slot h hslot => ?_)
            (safe_jump hjump (heldWith_lt hlow hlength.le) hthen)
          exact h.imp_right (FrameScope.held_append (hlength ▸ hslot)).mp
    have hafter := (PatternedCode.later _ hcode).length_eq
    cases hcode with
    | last _ harm => exact hplain (.refl _) harm (hafter ▸ hnext) (hafter ▸ hnext)
    | @plain _ _ _ _ _ _ middle _ _ s t _ _ _ _ harm hrest =>
      have hlater := PatternedCode.later rest hrest
      have hmiddle : middle.length = scope.length := hlater.length_eq.symm.trans hafter
      have hrestSafe := PatternedCode.safe rest hrest (hmiddle ▸ hslot)
        (hwithin.before hmiddle.ge (FrameScope.Later.refl _).grows) hnext
      rw [hmiddle] at hrestSafe
      rw [hafter] at hnext
      exact hplain hlater harm (hnext.of_held (heldWith_mono hlater.grows)) hrestSafe
    | @guarded _ _ _ _ _ _ middle _ _ s t _ _ _ _ _ harm hrest =>
      have hlater := PatternedCode.later rest hrest
      have hmiddle : middle.length = scope.length := hlater.length_eq.symm.trans hafter
      have hrestSafe := PatternedCode.safe rest hrest (hmiddle ▸ hslot)
        (hwithin.before hmiddle.ge (FrameScope.Later.refl _).grows) hnext
      rw [hmiddle] at hrestSafe
      rw [hafter] at hnext
      have hwithinArm : Within globals F arguments n loop outer scope middle :=
        hwithin.before le_rfl hlater.grows
      cases harm with
      | @intro _ _ _ _ _ bound tested declared rebound _ _ _ _ _ u _ _ _ _ _ hbound hmatch hmatcher hbranch hpop
          hguard htest hgo hbody hrebound hlength hdrop hjump hrefused hundo hgoOn hfail =>
        have hgrows : FrameScope.Grows scope (bound ++ scope) := ⟨bound, scope, rfl, .refl _⟩
        have hroom : (bound ++ scope).length = scope.length + bound.length := by
          rw [List.length_append, Nat.add_comm]
        have htested : tested.length = scope.length + bound.length := hguard.later.length_eq.trans hroom
        have hkept : (rebound ++ middle).length = tested.length := by
          rw [List.length_append, hrebound, hlength, htested, Nat.add_comm]
        have hbodyLater := (StmtsCode.grows body hbody).dropped hkept
        have houter : FrameScope.Later scope middle := by
          have := (hgrows.trans hguard.later.grows).trans hbodyLater.grows
          exact this.dropped hlength
        have hlowArm (slot : Nat) (h : outer slot) : slot < scope.length + bound.length :=
          (hlow slot h).trans_le (Nat.le_add_right ..)
        have hheldTested (slot : Nat) (h : heldWith outer tested slot) : slot < scope.length + bound.length :=
          heldWith_lt hlowArm htested.le slot h
        have helse := hrestSafe.of_held (heldWith_mono houter.grows)
        subst hbound
        refine safe_match hmatch hmatcher (length_boundScope pattern) hbranch hpop hfail hslot hheld ?_ helse
        refine Safe.of_held (hguard.safeWith (hroom ▸ hlowArm) hroom.le ?_) (heldWith_mono hgrows)
        refine safe_branch (.inl rfl) htest hheldTested (safe_drop (.inl rfl) hrefused hheldTested ?_)
          (safe_drop (.inl rfl) hgo hheldTested ?_)
        · -- The guard fails: the variables of the pattern are dropped as the body has left them.
          rw [← hrebound]
          refine hundo.safe hlength (fun slot h => ?_) (fun slot h hslot => ?_)
            (safe_jump hgoOn (heldWith_lt hlow hlength.le) hrestSafe)
          · exact h.imp (hlow slot) fun h => h.later hbodyLater
          · exact h.imp_right fun h => (FrameScope.held_append (hlength ▸ hslot)).mp (h.later hbodyLater)
        · rw [← htested]
          have hinside : Within globals F arguments n loop outer tested (declared ++ (rebound ++ middle)) := by
            rw [← List.append_assoc]
            exact hwithinArm.inside (by omega) hlength
          refine StmtsCode.safe body hbody hinside ?_
          rw [← List.append_assoc, List.length_append, hlength, Nat.add_comm]
          refine hdrop.safe hlength (fun slot h => h.imp_left (hlow slot)) (fun slot h hslot => ?_)
            (safe_jump hjump (heldWith_lt hlow hlength.le) (hnext.of_held (heldWith_mono hlater.grows)))
          exact h.imp_right (FrameScope.held_append (hlength ▸ hslot)).mp
termination_by structural arms

end

end OwnScript
