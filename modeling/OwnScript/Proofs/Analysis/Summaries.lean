import Mathlib
import OwnScript.Analysis.Summary

/-!
What the summaries of functions say together. The search from a function finds every function that it may
come to call, itself included, and the globals that it may read are those of all of them. A function that
refers to another one may therefore read all that the other one may read.
-/

namespace OwnScript.Summaries

variable {summaries : Summaries} {function callee id : BindingId}

/-- Functions that refer to none but one another. -/
def Closed (summaries : Summaries) (functions : List BindingId) : Prop :=
  ∀ function ∈ functions, ∀ callee ∈ (summaries.of function).calls, callee ∈ functions

/-- All references from function to function. -/
def targets (summaries : Summaries) : List BindingId :=
  summaries.toList.flatMap fun entry => entry.2.calls

theorem length_targets (summaries : Summaries) : summaries.targets.length = summaries.edgeCount := by
  rw [targets, edgeCount, List.length_flatMap, List.sum_eq_foldr, List.foldr_map]

theorem mem_targets (hcallee : callee ∈ (summaries.of function).calls) : callee ∈ summaries.targets := by
  unfold of at hcallee
  cases hfound : summaries[function]? with
  | none =>
    rw [hfound] at hcallee
    cases hcallee
  | some summary =>
    rw [hfound] at hcallee
    exact List.mem_flatMap.mpr ⟨(function, summary), Std.TreeMap.mem_toList_iff_getElem?_eq_some.mpr hfound, hcallee⟩

/-- What is on the list has been visited, and as many functions are new to the one as to the other. -/
structure Visited (pending visited callees : List BindingId) (after : List BindingId × List BindingId) : Prop where
  seen : ∀ f, f ∈ after.2 ↔ f ∈ visited ∨ f ∈ callees
  listed : ∀ f, f ∈ after.2 → f ∈ visited ∨ f ∈ after.1
  kept : ∀ f ∈ pending, f ∈ after.1
  new : ∀ f ∈ after.1, f ∈ pending ∨ f ∈ callees
  nodup : visited.Nodup → after.2.Nodup
  length : after.2.length + pending.length = after.1.length + visited.length

theorem visited_visit (pending visited callees : List BindingId) :
    Visited pending visited callees (visit pending visited callees) := by
  induction callees generalizing pending visited with
  | nil => exact ⟨by simp [visit], fun _ => .inl, fun _ => id, fun _ => .inl, id, Nat.add_comm ..⟩
  | cons callee rest ih =>
    unfold visit
    split
    · rename_i hseen
      have hseen : callee ∈ visited := by simpa using hseen
      obtain ⟨hvisited, hpending, hkept, hnew, hnodup, hlength⟩ := ih pending visited
      refine ⟨fun f => ?_, hpending, hkept, fun f hf => (hnew f hf).imp_right (List.mem_cons_of_mem _), hnodup, hlength⟩
      rw [hvisited, List.mem_cons]
      constructor
      · exact Or.imp_right .inr
      · rintro (h | rfl | h)
        · exact .inl h
        · exact .inl hseen
        · exact .inr h
    · rename_i hseen
      have hseen : callee ∉ visited := by simpa using hseen
      obtain ⟨hvisited, hpending, hkept, hnew, hnodup, hlength⟩ := ih (callee :: pending) (callee :: visited)
      refine ⟨fun f => ?_, fun f hf => ?_, fun f hf => hkept f (List.mem_cons_of_mem _ hf), fun f hf => ?_,
        fun h => hnodup (h.cons hseen), ?_⟩
      · rw [hvisited, List.mem_cons, List.mem_cons, or_assoc, or_left_comm]
      · rcases hpending f hf with h | h
        · rcases List.mem_cons.mp h with rfl | h
          · exact .inr (hkept _ (List.mem_cons_self ..))
          · exact .inl h
        · exact .inr h
      · rcases hnew f hf with h | h
        · rcases List.mem_cons.mp h with rfl | h
          · exact .inr (List.mem_cons_self ..)
          · exact .inl h
        · exact .inr (List.mem_cons_of_mem _ h)
      · simp only [List.length_cons] at hlength
        omega

/-- A search in so many steps. Each step takes a function from the list and puts those on it that the function refers
to and that were never there; the search is over when the list is empty. -/
inductive Searches (summaries : Summaries) : Nat → List BindingId → List BindingId → List BindingId → Prop where
  | done {visited : List BindingId} : Searches summaries 0 [] visited visited
  | step {steps : Nat} {current : BindingId} {pending visited after found : List BindingId} {left : List BindingId} :
      visit pending visited (summaries.of current).calls = (left, after) → Searches summaries steps left after found →
      Searches summaries (steps + 1) (current :: pending) visited found

/-- The search comes to its end. Every visited function but the first is the target of a reference, and each step takes
one from the list, so the list is empty when the steps are used up. -/
theorem searches_reachSteps (steps : Nat) {pending visited : List BindingId} (hnodup : visited.Nodup)
    (hvisited : ∀ f ∈ visited, f ∈ function :: summaries.targets)
    (hsteps : visited.length + steps = pending.length + summaries.edgeCount + 1) :
    ∃ needed ≤ steps, summaries.Searches needed pending visited (reachSteps summaries steps pending visited) := by
  induction steps generalizing pending visited with
  | zero =>
    have hbound := (hnodup.subperm hvisited).length_le
    rw [List.length_cons, length_targets] at hbound
    have hempty : pending = [] := List.eq_nil_of_length_eq_zero (by omega)
    subst hempty
    exact ⟨0, le_rfl, .done⟩
  | succ steps ih =>
    cases pending with
    | nil => exact ⟨0, Nat.zero_le _, .done⟩
    | cons current pending =>
      have hvisit := visited_visit pending visited (summaries.of current).calls
      have hlength := hvisit.length
      rw [List.length_cons] at hsteps
      have hseen : ∀ f ∈ (visit pending visited (summaries.of current).calls).2, f ∈ function :: summaries.targets := by
        intro f hf
        rcases (hvisit.seen f).mp hf with hold | hcalled
        · exact hvisited f hold
        · exact List.mem_cons_of_mem _ (mem_targets hcalled)
      obtain ⟨needed, hneeded, hsearches⟩ :=
        @ih (visit pending visited (summaries.of current).calls).1 _ (hvisit.nodup hnodup) hseen (by omega)
      exact ⟨needed + 1, Nat.succ_le_succ hneeded, .step rfl hsearches⟩

/-- What holds of the first functions, and of all that functions with it refer to, holds of all that is found. -/
theorem Searches.spreads {steps : Nat} {pending visited found : List BindingId} {holds : BindingId → Prop}
    (hsearches : summaries.Searches steps pending visited found)
    (hcalls : ∀ f callee, holds f → callee ∈ (summaries.of f).calls → holds callee)
    (hpending : ∀ f ∈ pending, holds f) (hvisited : ∀ f ∈ visited, holds f) : ∀ f ∈ found, holds f := by
  induction hsearches with
  | done => exact hvisited
  | @step steps current pending visited after found left hvisit _ ih =>
    have hstep := visited_visit pending visited (summaries.of current).calls
    rw [hvisit] at hstep
    have hcalled : ∀ callee ∈ (summaries.of current).calls, holds callee := by
      intro callee hcallee
      apply hcalls current callee _ hcallee
      exact hpending current (List.mem_cons_self ..)
    apply ih
    · intro f hf
      rcases hstep.new f hf with hold | hnew
      · exact hpending f (List.mem_cons_of_mem _ hold)
      · exact hcalled f hnew
    · intro f hf
      rcases (hstep.seen f).mp hf with hold | hnew
      · exact hvisited f hold
      · exact hcalled f hnew

/-- The search loses nothing and ends with functions that refer to none but one another: what a visited function refers
to has been visited, or the function still waits on the list. -/
theorem Searches.closed {steps : Nat} {pending visited found : List BindingId}
    (hsearches : summaries.Searches steps pending visited found)
    (hdone : ∀ f ∈ visited, f ∈ pending ∨ ∀ callee ∈ (summaries.of f).calls, callee ∈ visited) :
    (∀ f ∈ visited, f ∈ found) ∧ summaries.Closed found := by
  induction hsearches with
  | done => exact ⟨fun _ => id, fun f hf => (hdone f hf).resolve_left List.not_mem_nil⟩
  | @step steps current pending visited after found left hvisit _ ih =>
    have hstep := visited_visit pending visited (summaries.of current).calls
    rw [hvisit] at hstep
    have hafter := ih fun f hf => ?_
    · exact ⟨fun f hf => hafter.1 f ((hstep.seen f).mpr (.inl hf)), hafter.2⟩
    · rcases hstep.listed f hf with hold | hnew
      · rcases hdone f hold with hpending | hcalls
        · rcases List.mem_cons.mp hpending with rfl | hpending
          · exact .inr fun callee hcallee => (hstep.seen callee).mpr (.inr hcallee)
          · exact .inl (hstep.kept f hpending)
        · exact .inr fun callee hcallee => (hstep.seen callee).mpr (.inl (hcalls callee hcallee))
      · exact .inl hnew

/-- The search from one function comes to its end. -/
theorem searches_reachable (summaries : Summaries) (function : BindingId) :
    ∃ steps ≤ summaries.edgeCount + 1, summaries.Searches steps [function] [function] (summaries.reachable function) :=
  searches_reachSteps _ (List.nodup_singleton _)
    (fun f hf => List.mem_cons.mpr (.inl (List.mem_singleton.mp hf))) (by simp only [List.length_singleton]; omega)

theorem closed_reachable (summaries : Summaries) (function : BindingId) :
    function ∈ summaries.reachable function ∧ summaries.Closed (summaries.reachable function) := by
  obtain ⟨steps, -, hsearches⟩ := searches_reachable summaries function
  obtain ⟨hkept, hclosed⟩ := hsearches.closed fun _ => .inl
  exact ⟨hkept function (List.mem_singleton_self _), hclosed⟩

/-- A function has a summary that refers to another function. -/
def Refers (summaries : Summaries) (function callee : BindingId) : Prop :=
  ∃ summary, summaries[function]? = some summary ∧ callee ∈ summary.calls

/-- A function has a summary in which it reads a global itself. -/
def Reads (summaries : Summaries) (function id : BindingId) : Prop :=
  ∃ summary, summaries[function]? = some summary ∧ id ∈ summary.reads

theorem mem_calls : callee ∈ (summaries.of function).calls ↔ summaries.Refers function callee := by
  unfold of Refers
  cases summaries[function]? <;> simp

theorem mem_reads : id ∈ (summaries.of function).reads ↔ summaries.Reads function id := by
  unfold of Reads
  cases summaries[function]? <;> simp

/-- The search finds what references lead to, in any number of steps. -/
theorem mem_reachable : callee ∈ summaries.reachable function ↔
    Relation.ReflTransGen summaries.Refers function callee := by
  constructor
  · obtain ⟨steps, -, hsearches⟩ := searches_reachable summaries function
    have hfirst : ∀ f ∈ [function], Relation.ReflTransGen summaries.Refers function f := by
      intro f hf
      rw [List.mem_singleton.mp hf]
    apply hsearches.spreads _ hfirst hfirst
    intro f callee hreached hcallee
    exact hreached.tail (mem_calls.mp hcallee)
  · intro hreached
    obtain ⟨hself, hclosed⟩ := closed_reachable summaries function
    induction hreached with
    | refl => exact hself
    | tail _ hrefers ih => exact hclosed _ ih _ (mem_calls.mpr hrefers)

theorem mem_globalReads : id ∈ summaries.globalReads function ↔
    ∃ f ∈ summaries.reachable function, id ∈ (summaries.of f).reads := by
  have hfold (ids : List BindingId) (seen : Std.TreeSet BindingId) :
      id ∈ (ids.foldl (fun (seen : Std.TreeSet BindingId) id => seen.insert id) seen).toList ↔
        id ∈ seen ∨ id ∈ ids := by
    induction ids generalizing seen with
    | nil => simp
    | cons first rest ih =>
      rw [List.foldl_cons, ih, Std.TreeSet.mem_insert, List.mem_cons, compare_eq_iff_eq, or_assoc, or_left_comm,
        eq_comm]
  rw [globalReads, hfold]
  simp [List.mem_flatMap]

/-- What a function reads itself. -/
theorem mem_globalReads_of_reads (hread : id ∈ (summaries.of function).reads) :
    id ∈ summaries.globalReads function :=
  mem_globalReads.mpr ⟨function, (closed_reachable summaries function).1, hread⟩

/-- What may be read by a function that another one refers to. -/
theorem mem_globalReads_of_calls (hcall : callee ∈ (summaries.of function).calls)
    (hread : id ∈ summaries.globalReads callee) : id ∈ summaries.globalReads function := by
  obtain ⟨f, hf, hread⟩ := mem_globalReads.mp hread
  have hreached := (mem_reachable.mp hf).head (mem_calls.mp hcall)
  exact mem_globalReads.mpr ⟨f, mem_reachable.mpr hreached, hread⟩

/-- The globals that a function may read stand in ascending order, so none stands there twice. -/
theorem globalReads_ascending (summaries : Summaries) (function : BindingId) :
    (summaries.globalReads function).Pairwise (· < ·) := by
  apply List.Pairwise.imp _ Std.TreeSet.ordered_toList
  intro a b hless
  exact Nat.compare_eq_lt.mp hless

/-- Whatever the summaries are, with functions that refer to one another in circles and functions without a summary, the
search from a function comes to its end, and the function may read what is read by some function that references lead to
from it, in any number of steps. -/
theorem globalReads_follow_calls (summaries : Summaries) (function : BindingId) :
    (∃ steps ≤ summaries.edgeCount + 1,
      summaries.Searches steps [function] [function] (summaries.reachable function)) ∧
    (summaries.globalReads function).Pairwise (· < ·) ∧
    ∀ id, id ∈ summaries.globalReads function ↔
      ∃ f, Relation.ReflTransGen summaries.Refers function f ∧ summaries.Reads f id := by
  refine ⟨searches_reachable summaries function, globalReads_ascending summaries function, fun id => ?_⟩
  simp only [mem_globalReads, mem_reachable, mem_reads]

end OwnScript.Summaries
