import OwnScript.Proofs.Stack.Statements

/-!
The code of functions and scripts is safe. A function starts on its arguments, however many they are: every
clause finds them as the caller has left them, and none leaves anything behind for the next one. A script
starts on an empty frame.
-/

namespace OwnScript

open Profile

variable {globals : GlobalTable} {F : Listing True} {arguments n : Nat}

/-- A clause is tried: if it accepts the arguments, its variables are on the frame, and otherwise the
arguments alone are. -/
theorem safe_clause {p target a bound : Nat} {place : Location} {matchers : List Matcher}
    (hhas : F.Has p none .matchArgs a 0 place) (hmatchers : F.chunk.clauses[a]? = some matchers)
    (hbound : bound = Matcher.bindings matchers)
    (hjumps : F.Jumps (p + 3) none .jumpIfFalse place target)
    (hpop : F.Has (p + 6) (some (matchers.length + bound + 1)) .pop 0 0 place)
    (hfail : F.Has target none .pop 0 0 place)
    (hmatches : Safe globals F arguments n ⟨p + 7, matchers.length + bound, fun _ => False, none⟩)
    (hfails : Safe globals F arguments n ⟨target + 1, arguments, fun _ => False, none⟩) :
    Safe globals F arguments n ⟨p, arguments, fun _ => False, none⟩ := by
  subst hbound
  have hfree (height slot : Nat) (h : False) : slot < height := h.elim
  have hthen : Safe globals F arguments n
      ⟨p + 3 + 3, matchers.length + Matcher.bindings matchers + 1, fun _ => False, none⟩ :=
    safe_drop (.inl rfl) hpop (hfree _) hmatches
  have helse : Safe globals F arguments n ⟨target, arguments + 1, fun _ => False, none⟩ :=
    (safe_step_any hfail (hfree _) (.plain rfl (Nat.le_add_left ..) (Nat.zero_le _) (fun _ h => by cases h)
      (fun _ _ => id) hfails)).fewer
  obtain ⟨distance, hbranch, htarget⟩ := hjumps
  rw [← htarget] at helse
  refine (safe_step_any hhas (hfree _) (.matchArgs hmatchers le_rfl (fun hcount => ?_) ?_)).fewer
  · subst hcount
    refine (safe_step_any hbranch (hfree _) (.ifFalse (Nat.succ_pos _) (fun h => ?_) fun _ => ?_)).fewer
    · exact absurd rfl h
    · exact hthen
  · refine (safe_step_any hbranch (hfree _) (.ifFalse (Nat.succ_pos _) (fun _ => helse) fun h => ?_)).fewer
    exact absurd rfl h

/-- Clauses that do not accept the arguments leave them to what follows. -/
theorem ClausesCode.safe {location : Location} {p after : Nat} {clauses : List Clause}
    (hcode : ClausesCode globals F location p clauses after)
    (hnext : Safe globals F arguments n ⟨after, arguments, fun _ => False, none⟩) :
    Safe globals F arguments n ⟨p, arguments, fun _ => False, none⟩ := by
  induction clauses generalizing p with
  | nil =>
    cases hcode
    exact hnext
  | cons clause rest ih =>
    cases hcode with
    | @cons _ _ _ _ _ q a _ scope last parameters body _ _ hhas hclauses hjumps hscope hpop hbody hnil hret hfail
        hrest =>
      have hlength : scope.length =
          (parameters.map parameterMatcher).length + Matcher.bindings (parameters.map parameterMatcher) := by
        rw [← hscope, bindings_parameters]
        simp [boundScope, parameterScope, Nat.add_comm]
      have hlow (slot : Nat) (h : heldWith (fun _ => False) last slot) : slot < last.length :=
        heldWith_lt (fun _ h => h.elim) le_rfl slot h
      have hbodySafe : Safe globals F arguments n
          ⟨p + 7, scope.length, heldWith (fun _ => False) scope, none⟩ :=
        StmtsCode.safe body hbody .none (safe_nil hnil hlow (safe_return hret hlow))
      rw [hlength] at hpop hbodySafe
      exact safe_clause hhas hclauses rfl hjumps hpop hfail (hbodySafe.of_held fun _ h => h.elim) (ih hrest)

/-- A function may be called with any number of arguments. -/
theorem PrototypeCode.safe {location : Location} {prototype : Prototype} {function : Function}
    (hcode : PrototypeCode globals F location prototype function) (arguments n : Nat) :
    Safe globals F arguments n ⟨0, arguments, fun _ => False, none⟩ := by
  cases hcode with
  | intro _ hclauses hlast =>
    exact hclauses.safe (safe_step_any hlast (fun _ h => h.elim) .noMatchingOverload).fewer

/-- The global functions are built one after the other on an empty frame. -/
theorem HoistCode.safe {p q : Nat} {stmts : List Stmt} (hcode : HoistCode globals F p stmts q)
    (hnext : Safe globals F arguments n ⟨q, 0, fun _ => False, none⟩) :
    Safe globals F arguments n ⟨p, 0, fun _ => False, none⟩ := by
  have hfree (slot : Nat) (h : False) : slot < 0 := h.elim
  induction hcode with
  | nil => exact hnext
  | function hclosure _ hset hpop _ ih =>
    have hstored := safe_store (.inl rfl) hset hfree (fun _ h => by cases h)
      (safe_drop (.inl rfl) hpop hfree (ih hnext))
    exact hclosure.safe (fun _ => id) (fun _ h => h.elim) (fun _ h => h.elim) hstored
  | skip _ _ ih => exact ih hnext

/-- A script runs on an empty frame. -/
theorem ScriptCode.safe {prototype : Prototype} {stmts : List Stmt}
    (hcode : ScriptCode globals F prototype stmts) (n : Nat) :
    Safe globals F 0 n ⟨0, 0, fun _ => False, none⟩ := by
  cases hcode with
  | @intro p q scope _ hhoist hstmts hhalt =>
    refine hhoist.safe ?_
    have hend : Safe globals F 0 n ⟨q, scope.length, heldWith (fun _ => False) scope, none⟩ :=
      (safe_step hhalt (heldWith_lt (fun _ h => h.elim) le_rfl) .halt).fewer
    exact (StmtsCode.safe stmts hstmts .none hend).of_held fun _ h => h.elim

end OwnScript
