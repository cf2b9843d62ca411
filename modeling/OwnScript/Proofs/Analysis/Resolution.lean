import OwnScript.Proofs.Analysis.Walks
import OwnScript.Proofs.Program.CallFree

/-!
Analysis resolves names lexically. However often the body of a loop is looked at, the last look writes on its
names what lexical scoping says, and a rule of scoping that is broken somewhere is reported there.
-/

namespace OwnScript

open Analysis

namespace Check

variable {a : Analysis} {scopes : Scopes} {name : String} {resolution : Resolution}

theorem walks_declare {location : Location} {initial : InitState} (after : BindingId → Check Unit)
    (build : Resolution → Stmt) {post : Stmt → List Naming → Prop} (hsees : a.Sees scopes)
    (hafter : ∀ id, Quiet (after id)) (hpost : ∀ resolution, post (build resolution) [.declares name resolution]) :
    WalksAt a scopes (do
      let id ← declareName name location initial
      after id
      return build { binding := some id, isGlobal := ← isGlobal id }) [.declares name resolution] post := by
  change WalksAt a scopes (declared name location initial after >>= fun found =>
    pure (build { binding := some found.1, isGlobal := found.2 })) _ _
  refine (walks_declared hsees hafter).map fun found more hmore => ?_
  rw [hmore]
  exact hpost _

theorem walks_refers {step : Check Stmt} {target : Resolution} {post : Stmt → List Naming → Prop}
    (hsees : a.Sees scopes) (hvisible : scopes.visible name = some target) (hquiet : Quiet step)
    (hpost : ∀ b, post (step b).1 [.refers name target]) : WalksAt a scopes step [.refers name resolution] post :=
  ⟨_, hpost a, walked_refers hsees hvisible (hquiet a)⟩

theorem walks_lookup {next : Option BindingId → Check Stmt} {outline : List Naming} {post : Stmt → List Naming → Prop}
    (hnext : WalksAt a scopes (next (a.found name)) outline post) :
    WalksAt a scopes (lookup name >>= next) outline post :=
  hnext

theorem walks_isGlobal {id : BindingId} {next : Bool → Check Stmt} {outline : List Naming}
    {post : Stmt → List Naming → Prop} (hnext : WalksAt a scopes (next (a.resolutionOf id).isGlobal) outline post) :
    WalksAt a scopes (isGlobal id >>= next) outline post :=
  hnext

/-- The outcome of a look at a statement. -/
def Seen (stmt part : Stmt) (more : List Naming) : Prop :=
  more = part.outline ∧ part.isFunction = stmt.isFunction

mutual

theorem walks_expr (expr : Expr) (a : Analysis) (scopes : Scopes) (hsees : a.Sees scopes)
    (hopen : Undecided expr.outline expr.callFree) :
    WalksAt a scopes (checkExpr expr) expr.outline fun part more => more = part.outline := by
  cases expr with
  | absent => exact walks_pure hsees rfl
  | literal location value => exact walks_pure hsees rfl
  | name identifier =>
    refine (walks_resolve hsees).settle (fun found => ?_) fun found more b hfound => ?_
    · obtain ⟨resolved, target⟩ := found
      cases target with
      | none => exact quiet_pure _
      | some id => exact quiet_useBinding.bind fun _ => quiet_pure _
    · obtain ⟨resolved, target⟩ := found
      cases target <;> exact hfound
  | unary location op operand => exact (walks_expr operand a scopes hsees hopen).map fun part more h => h
  | binary location op left right =>
    obtain ⟨hleft, hright⟩ := hopen.both
    refine (walks_expr left a scopes hsees hleft).bind fun first done b hfirst hsees => ?_
    split
    · refine quiet_getFlow.walks hsees fun _ b hsees => ?_
      refine (walks_expr right b _ hsees hright).settle (fun _ => ?_) fun second more _ hsecond => ?_
      · exact quiet_getFlow.bind fun _ => quiet_setFlow.bind fun _ => quiet_pure _
      · rw [hfirst, hsecond]
        rfl
    · exact (walks_expr right b _ hsees hright).map fun second more hsecond => by rw [hfirst, hsecond]; rfl
  | call location callee arguments =>
    obtain ⟨hcallee, harguments⟩ := unresolved_append.mp (hopen.resolve_right Bool.false_ne_true)
    refine (walks_expr callee a scopes hsees (.inl hcallee)).bind fun first done b hfirst hsees => ?_
    refine quiet_newExtent.walks hsees fun extent b hsees => ?_
    refine (walks_arguments extent arguments [] b _ hsees (.inl harguments)).settle
      (fun _ => ?_) fun others more _ hmore => ?_
    · exact quiet_releaseExtent.bind fun _ => quiet_pure _
    · rw [hfirst, hmore.all]
      rfl
  | field location object name => exact (walks_expr object a scopes hsees hopen).map fun part more h => h
  | index location object index =>
    obtain ⟨hobject, hindex⟩ := hopen.both
    refine (walks_expr object a scopes hsees hobject).bind fun first done b hfirst hsees => ?_
    exact (walks_expr index b _ hsees hindex).map fun second more hsecond => by rw [hfirst, hsecond]; rfl
  | record location fields => exact (walks_fields fields [] a scopes hsees hopen).map fun parts more h => h.all
  | array location items => exact (walks_items items [] a scopes hsees hopen).map fun parts more h => h.all
  | lambda location function =>
    exact (walks_function function a scopes hsees (hopen.resolve_right Bool.false_ne_true)).map fun part more h => h
  | borrow location target exclusive =>
    refine quiet_newExtent.walks hsees fun extent b hsees => ?_
    refine (walks_borrowPlace (walks_place target b scopes hsees hopen) fun b hsees =>
      walks_expr target b scopes hsees hopen).settle (fun _ => ?_) fun found more _ h => h
    exact quiet_releaseExtent.bind fun _ => quiet_pure _
  | move location target =>
    cases target with
    | none => exact walks_pure hsees rfl
    | some identifier =>
      refine (walks_resolve hsees).settle (fun found => ?_) fun found more b hfound => ?_
      · obtain ⟨resolved, target⟩ := found
        cases target with
        | none => exact quiet_pure _
        | some id => exact quiet_moveBinding.bind fun _ => quiet_pure _
      · obtain ⟨resolved, target⟩ := found
        cases target <;> exact hfound
  | deref location operand => exact (walks_expr operand a scopes hsees hopen).map fun part more h => h
termination_by structural expr

theorem walks_place (expr : Expr) (a : Analysis) (scopes : Scopes) (hsees : a.Sees scopes)
    (hopen : Undecided expr.outline expr.callFree) :
    PlaceSeen a scopes expr (checkPlace expr a).1 (checkPlace expr a).2 := by
  cases expr with
  | name identifier =>
    obtain ⟨more, hmore, hwalked⟩ := walks_resolve hsees
    change PlaceSeen a scopes _ ((match (resolve identifier a).1.2 with
      | none => pure (.name (resolve identifier a).1.1, .unresolved)
      | some id => pure (.name (resolve identifier a).1.1, .resolved (resolve identifier a).1.1 id) :
        Check (Expr × PlaceRoot)) (resolve identifier a).2).1 ((match (resolve identifier a).1.2 with
      | none => pure (.name (resolve identifier a).1.1, .unresolved)
      | some id => pure (.name (resolve identifier a).1.1, .resolved (resolve identifier a).1.1 id) :
        Check (Expr × PlaceRoot)) (resolve identifier a).2).2
    generalize resolve identifier a = state at hmore hwalked ⊢
    obtain ⟨⟨resolved, target⟩, b⟩ := state
    subst hmore
    cases target <;> exact hwalked
  | field location object name =>
    have hobject := walks_place object a scopes hsees hopen
    change PlaceSeen a scopes _ (.field location (checkPlace object a).1.1 name, (checkPlace object a).1.2)
      (checkPlace object a).2
    generalize checkPlace object a = state at hobject ⊢
    obtain ⟨⟨part, root⟩, b⟩ := state
    cases root <;> exact hobject
  | index location object index =>
    obtain ⟨hfirst, hsecond⟩ := hopen.both
    obtain ⟨more, hmore, hindex⟩ := walks_expr index a scopes hsees hsecond
    have hneutral : Neutral more := hmore ▸ (checkExpr index a).1.neutral_outline
    have hsees : (checkExpr index a).2.Sees scopes := hneutral scopes ▸ hindex.sees
    have hobject := walks_place object (checkExpr index a).2 scopes hsees hfirst
    change PlaceSeen a scopes _ (.index location (checkPlace object (checkExpr index a).2).1.1 (checkExpr index a).1,
      (checkPlace object (checkExpr index a).2).1.2) (checkPlace object (checkExpr index a).2).2
    generalize checkPlace object (checkExpr index a).2 = state at hobject ⊢
    obtain ⟨⟨part, root⟩, b⟩ := state
    subst hmore
    cases root with
    | expression => exact hindex.glanced hobject object.neutral_outline
    | unresolved => exact hindex.swap hneutral hobject part.neutral_outline
    | resolved identifier id => exact hindex.swap hneutral hobject part.neutral_outline
  | _ => exact Glanced.refl hsees _
termination_by structural expr

theorem walks_arguments (extent : Extent) (arguments done : List Expr) (a : Analysis) (scopes : Scopes)
    (hsees : a.Sees scopes) (hopen : Undecided (Expr.outlines arguments) (exprsCallFree arguments)) :
    WalksAt a scopes (checkArguments extent arguments done) (Expr.outlines arguments) (GoesOn Expr.outlines done) := by
  cases arguments with
  | nil => exact walks_pure hsees (goesOn_done rfl done)
  | cons argument rest =>
    obtain ⟨hargument, hrest⟩ := hopen.both
    have hnext (part : Expr) (b : Analysis) (hsees : b.Sees (scopes.afterAll part.outline)) :
        WalksAt b (scopes.afterAll part.outline) (checkArguments extent rest (part :: done)) (Expr.outlines rest)
          fun result more => GoesOn Expr.outlines done result (part.outline ++ more) :=
      (walks_arguments extent rest (part :: done) b _ hsees hrest).mono fun result more h => h.step fun _ => rfl
    cases argument with
    | borrow location target exclusive =>
      refine (walks_borrowPlace (walks_place target a scopes hsees hargument) fun b hsees =>
        walks_expr target b scopes hsees hargument).bind fun found first b hfirst hsees => ?_
      subst hfirst
      exact hnext (.borrow location found.1 exclusive) b hsees
    | _ =>
      refine (walks_expr _ a scopes hsees hargument).bind fun part first b hfirst hsees => ?_
      subst hfirst
      exact hnext part b hsees
termination_by structural arguments

theorem walks_items (items done : List Expr) (a : Analysis) (scopes : Scopes) (hsees : a.Sees scopes)
    (hopen : Undecided (Expr.outlines items) (exprsCallFree items)) :
    WalksAt a scopes (checkItems items done) (Expr.outlines items) (GoesOn Expr.outlines done) := by
  cases items with
  | nil => exact walks_pure hsees (goesOn_done rfl done)
  | cons item rest =>
    obtain ⟨hitem, hrest⟩ := hopen.both
    refine (walks_expr item a scopes hsees hitem).bind fun part first b hfirst hsees => ?_
    refine (walks_items rest (part :: done) b _ hsees hrest).mono fun result more h => h.step fun parts => ?_
    rw [hfirst, Expr.outlines]
termination_by structural items

theorem walks_fields (fields done : List (String × Expr)) (a : Analysis) (scopes : Scopes) (hsees : a.Sees scopes)
    (hopen : Undecided (Expr.fieldOutlines fields) (fieldsCallFree fields)) :
    WalksAt a scopes (checkFields fields done) (Expr.fieldOutlines fields) (GoesOn Expr.fieldOutlines done) := by
  cases fields with
  | nil => exact walks_pure hsees (goesOn_done rfl done)
  | cons field rest =>
    obtain ⟨name, value⟩ := field
    obtain ⟨hvalue, hrest⟩ := hopen.both
    refine (walks_expr value a scopes hsees hvalue).bind fun part first b hfirst hsees => ?_
    refine (walks_fields rest ((name, part) :: done) b _ hsees hrest).mono fun result more h => h.step fun parts => ?_
    rw [hfirst, Expr.fieldOutlines]
termination_by structural fields

theorem walks_stmt (stmt : Stmt) (a : Analysis) (scopes : Scopes) (hsees : a.Sees scopes)
    (hopen : Undecided stmt.outline stmt.callFree) : WalksAt a scopes (checkStmt stmt) stmt.outline (Seen stmt) := by
  cases stmt with
  | absent => exact walks_pure hsees ⟨rfl, rfl⟩
  | declare location name initial resolution =>
    have hinitial := hopen.first
    have hplain : WalksAt a scopes (do
        let initial ← checkExpr initial
        let id ← declareName name location (if initial.isAbsent then .uninitialized else .initialized)
        return .declare location name initial { binding := some id, isGlobal := ← isGlobal id })
        (Stmt.declare location name initial resolution).outline (Seen (.declare location name initial resolution)) := by
      refine (walks_expr initial a scopes hsees hinitial).bind fun part first b hfirst hsees => ?_
      refine walks_declare (fun _ => pure ()) (Stmt.declare location name part) hsees
        (fun _ => quiet_pure _) fun resolution => ⟨?_, rfl⟩
      rw [hfirst, Stmt.outline]
    cases initial with
    | borrow place target exclusive =>
      refine quiet_get.walks hsees fun state b hsees => ?_
      refine (walks_borrowPlace (walks_place target b scopes hsees hinitial) fun b hsees =>
        walks_expr target b scopes hsees hinitial).bind fun found first b hfirst hsees => ?_
      obtain ⟨part, borrow⟩ := found
      have hseen (resolution found : Resolution) :
        Seen (.declare location name (.borrow place target exclusive) resolution)
          (.declare location name (.borrow place part exclusive) found) (first ++ [.declares name found]) :=
        ⟨by rw [hfirst, Stmt.outline, Expr.outline], rfl⟩
      cases borrow with
      | none =>
        exact walks_declare (fun _ => pure ()) (Stmt.declare location name (.borrow place part exclusive)) hsees
          (fun _ => quiet_pure _) (hseen _)
      | some borrow =>
        exact walks_declare (holdBorrow borrow) (Stmt.declare location name (.borrow place part exclusive)) hsees
          (fun _ => quiet_holdBorrow) (hseen _)
    | _ => exact hplain
  | assign location name value resolution =>
    have hvalue := hopen.first
    rw [checkStmt]
    refine walks_lookup ?_
    cases hfound : a.found name with
    | none =>
      refine (walks_expr value a scopes hsees hvalue).neutral (fun part more h => h ▸ part.neutral_outline)
        fun part first b hfirst hsees' => ?_
      refine ⟨_, ⟨?_, rfl⟩, walked_undefined hsees' (hsees'.visible_eq_none.mp (hsees.visible_eq_none.mpr hfound))⟩
      rw [hfirst]
      rfl
    | some id =>
      have hvisible := hsees.visible_found hfound
      refine walks_isGlobal ?_
      have hplain : WalksAt a scopes (do
          let value ← checkExpr value
          releaseHeldBy id
          assignBinding id name location
          return .assign location name value (a.resolutionOf id))
          (Stmt.assign location name value resolution).outline (Seen (.assign location name value resolution)) := by
        refine (walks_expr value a scopes hsees hvalue).neutral (fun part more h => h ▸ part.neutral_outline)
          fun part first b hfirst hsees => ?_
        refine walks_refers hsees hvisible (quiet_releaseHeldBy.bind fun _ => quiet_assignBinding.bind fun _ =>
          quiet_pure _) fun _ => ⟨?_, rfl⟩
        rw [hfirst]
        rfl
      cases value with
      | borrow place target exclusive =>
        refine quiet_releaseHeldBy.walks hsees fun _ b hsees => quiet_get.walks hsees fun state b hsees => ?_
        refine (walks_borrowPlace (walks_place target b scopes hsees hvalue) fun b hsees =>
          walks_expr target b scopes hsees hvalue).neutral (fun found more h => h ▸ found.1.neutral_outline)
          fun found first b hfirst hsees => ?_
        obtain ⟨part, borrow⟩ := found
        cases borrow with
        | none =>
          refine walks_refers hsees hvisible (quiet_assignBinding.bind fun _ => quiet_pure _) fun _ => ⟨?_, rfl⟩
          rw [hfirst]
          rfl
        | some borrow =>
          refine walks_refers hsees hvisible (quiet_assignBinding.bind fun _ => quiet_holdBorrow.bind fun _ =>
            quiet_pure _) fun _ => ⟨?_, rfl⟩
          rw [hfirst]
          rfl
      | _ => exact hplain
  | assignField location object field value =>
    obtain ⟨hobject, hvalue⟩ := hopen.both
    refine (walks_expr object a scopes hsees hobject).bind fun first done b hfirst hsees => ?_
    refine (walks_expr value b _ hsees hvalue).map fun second more hsecond => ⟨?_, rfl⟩
    rw [hfirst, hsecond]
    rfl
  | assignIndex location object index value =>
    obtain ⟨hobject, hrest⟩ := hopen.both
    obtain ⟨hindex, hvalue⟩ := hrest.both
    refine (walks_expr object a scopes hsees hobject).bind fun first done b hfirst hsees => ?_
    refine (walks_expr index b _ hsees hindex).bind fun second more c hsecond hsees => ?_
    refine (walks_expr value c _ hsees hvalue).map fun third others hthird => ⟨?_, rfl⟩
    rw [hfirst, hsecond, hthird]
    rfl
  | evaluate location expression =>
    exact (walks_expr expression a scopes hsees hopen).map fun part more h => ⟨h, rfl⟩
  | print location expression =>
    exact (walks_expr expression a scopes hsees hopen).map fun part more h => ⟨h, rfl⟩
  | block location body =>
    change WalksAt a scopes (inScope (checkStmts body []) >>= fun body => pure (Stmt.block location body)) _ _
    refine (walks_inScope hsees fun b hsees => walks_stmts body [] b _ hsees hopen.inside).map
      fun parts more h => ⟨?_, rfl⟩
    obtain ⟨inner, hinner, rfl⟩ := h
    rw [hinner.all]
    rfl
  | ifElse location condition yes no =>
    obtain ⟨hcondition, hbranches⟩ := hopen.both
    obtain ⟨hyes, hno⟩ := hbranches.both
    refine (walks_expr condition a scopes hsees hcondition).bind fun test done b htest hsees => ?_
    refine quiet_getFlow.walks hsees fun base b hsees => ?_
    refine (walks_stmt yes b _ hsees hyes).bind fun first more c hfirst hsees => ?_
    refine quiet_getFlow.walks hsees fun _ c hsees => quiet_setFlow.walks hsees fun _ c hsees => ?_
    refine (walks_stmt no c _ hsees hno).settle (fun _ => ?_) fun second others _ hsecond => ⟨?_, rfl⟩
    · exact quiet_getFlow.bind fun _ => quiet_setFlow.bind fun _ => quiet_pure _
    · rw [htest, hfirst.1, hsecond.1]
      rfl
  | cond location scrutinee arms =>
    obtain ⟨hscrutinee, harms⟩ := hopen.both
    refine (walks_expr scrutinee a scopes hsees hscrutinee).bind fun part first b hfirst hsees => ?_
    refine quiet_get.walks hsees fun state b hsees => quiet_getFlow.walks hsees fun flow b hsees => ?_
    refine (walks_arms state.symbols.size arms flow .unreachable [] b _ hsees harms).settle (fun _ => ?_)
      fun found more _ hmore => ⟨?_, rfl⟩
    · exact quiet_setFlow.bind fun _ => quiet_pure _
    · rw [hfirst, hmore.all]
      rfl
  | whileLoop location condition body =>
    obtain ⟨hcondition, hbody⟩ := hopen.inside.both
    have hturn (b : Analysis) (hsees : b.Sees scopes.enter) : WalksAt b scopes.enter (do
        let condition ← checkExpr condition
        let testExit ← getFlow
        let body ← checkStmt body
        return ((condition, body), some testExit)) (condition.outline ++ body.outline)
        fun found more => more = found.1.1.outline ++ found.1.2.outline := by
      refine (walks_expr condition b _ hsees hcondition).bind fun test done c htest hsees => ?_
      refine quiet_getFlow.walks hsees fun testExit c hsees => ?_
      exact (walks_stmt body c _ hsees hbody).map fun part more hpart => by rw [htest, hpart.1]
    refine (@walks_analyzeLoop _ _ _ _ _
      (fun parts more => more = parts.1.outline ++ parts.2.outline) hturn hsees).map fun parts more h => ⟨?_, rfl⟩
    obtain ⟨inner, rfl, rfl⟩ := h
    rfl
  | forLoop location counter binding first bound body =>
    obtain ⟨hfirst, hrest⟩ := hopen.both
    obtain ⟨hbound, hloop⟩ := hrest.both
    have hbody := @Undecided.second [.declares counter { binding }] _ _ hloop.inside.inside
    refine (walks_expr first a scopes hsees hfirst).bind fun low done b hlow hsees => ?_
    refine (walks_expr bound b _ hsees hbound).bind fun high more c hhigh hsees => ?_
    generalize (scopes.afterAll done).afterAll more = scopes at hsees ⊢
    have hshared (d : Analysis) (hsees : d.Sees scopes.enter.enter) : WalksAt d scopes.enter.enter (do
        let id ← declareName counter location .initialized
        let body ← checkStmt body
        return (id, body)) ([.declares counter { binding }] ++ body.outline)
        fun found more => more = [.declares counter { binding := some found.1 }] ++ found.2.outline := by
      refine (walks_declareName hsees nofun).bind fun id done e hid hsees => ?_
      exact (walks_stmt body e _ hsees hbody).map fun part more hpart => by rw [hid, hpart.1]
    have hturn (d : Analysis) (hsees : d.Sees scopes.enter) : WalksAt d scopes.enter (do
        let testExit ← getFlow
        enterScope
        let id ← declareName counter location .initialized
        let body ← checkStmt body
        exitScope
        return ((id, body), some testExit)) [.scope ([.declares counter { binding }] ++ body.outline)]
        fun found more =>
          more = [.scope ([.declares counter { binding := some found.1.1 }] ++ found.1.2.outline)] := by
      refine quiet_getFlow.walks hsees fun testExit d hsees => ?_
      change WalksAt d scopes.enter (inScope (do
        let id ← declareName counter location .initialized
        let body ← checkStmt body
        return (id, body)) >>= fun found => pure ((found.1, found.2), some testExit)) _ _
      refine (walks_inScope hsees hshared).map fun found more h => ?_
      obtain ⟨inner, rfl, rfl⟩ := h
      rfl
    refine (@walks_analyzeLoop _ _ _ _ _ (fun parts more =>
      more = [.scope ([.declares counter { binding := some parts.1 }] ++ parts.2.outline)]) hturn hsees).map
      fun found more h => ⟨?_, rfl⟩
    obtain ⟨inner, rfl, rfl⟩ := h
    rw [hlow, hhigh]
    rfl
  | forever location body =>
    have hturn (b : Analysis) (hsees : b.Sees scopes.enter) : WalksAt b scopes.enter (do
        let body ← checkStmt body
        return (body, (none : Option FlowState))) body.outline fun found more => more = found.1.outline :=
      (walks_stmt body b _ hsees hopen.inside).map fun part more hpart => hpart.1
    refine (@walks_analyzeLoop _ _ _ _ _ (fun part more => more = part.outline) hturn hsees).map
      fun part more h => ⟨?_, rfl⟩
    obtain ⟨inner, rfl, rfl⟩ := h
    rfl
  | leave location => exact ⟨[], ⟨rfl, rfl⟩, ((quiet_leaveLoop.bind fun _ => quiet_pure _) a).walked hsees⟩
  | skip location => exact ⟨[], ⟨rfl, rfl⟩, ((quiet_skipLoop.bind fun _ => quiet_pure _) a).walked hsees⟩
  | giveBack location value =>
    refine (walks_expr value a scopes hsees hopen).settle (fun _ => ?_) fun part more _ h => ⟨h, rfl⟩
    exact quiet_endPath.bind fun _ => quiet_pure _
  | disown location name resolution =>
    refine walks_lookup ?_
    cases hfound : a.found name with
    | none =>
      exact ⟨_, ⟨rfl, rfl⟩, walked_undefined hsees hfound⟩
    | some id =>
      refine walks_isGlobal ?_
      exact walks_refers hsees (hsees.visible_found hfound) (quiet_moveBinding.bind fun _ => quiet_pure _)
        fun _ => ⟨rfl, rfl⟩
  | function location declaration resolution =>
    obtain ⟨name, isProc, clauses⟩ := declaration
    obtain ⟨hname, hclauses⟩ := (@unresolved_append [.declares name resolution] _).mp
      (hopen.resolve_right Bool.false_ne_true)
    obtain rfl : resolution = {} := hname _ (.head _)
    change WalksAt a scopes (declared name location .initialized (fun _ => pure ()) >>= fun found =>
      declaredBody found.1 (functionBody fun flow => checkClauses flow clauses []) >>= fun clauses =>
        pure (Stmt.function location ⟨name, isProc, clauses⟩ { binding := some found.1, isGlobal := found.2 })) _ _
    refine (walks_declared hsees fun _ => quiet_pure _).bind fun found first b hfirst hsees => ?_
    refine (walks_declaredBody (fun b hsees => walks_functionBody (fun flow b hsees =>
      walks_clauses flow clauses [] b _ hsees hclauses) hsees) hsees).map fun parts more hmore => ⟨?_, rfl⟩
    rw [hfirst, hmore.all]
    rfl
termination_by structural stmt

theorem walks_stmts (stmts done : List Stmt) (a : Analysis) (scopes : Scopes) (hsees : a.Sees scopes)
    (hopen : Undecided (Stmt.outlines stmts) (stmtsCallFree stmts)) :
    WalksAt a scopes (checkStmts stmts done) (Stmt.outlines stmts) (GoesOn Stmt.outlines done) := by
  cases stmts with
  | nil => exact walks_pure hsees (goesOn_done rfl done)
  | cons stmt rest =>
    obtain ⟨hstmt, hrest⟩ := hopen.both
    refine (walks_stmt stmt a scopes hsees hstmt).bind fun part first b hfirst hsees => ?_
    refine (walks_stmts rest (part :: done) b _ hsees hrest).mono fun result more h => h.step fun parts => ?_
    rw [hfirst.1, Stmt.outlines]
termination_by structural stmts

theorem walks_arms (outer : Nat) (arms : List Arm) (test after : FlowState) (done : List Arm) (a : Analysis)
    (scopes : Scopes) (hsees : a.Sees scopes) (hopen : Undecided (Arm.outlines arms) (armsCallFree arms)) :
    WalksAt a scopes (checkArms outer arms test after done) (Arm.outlines arms) fun found more =>
      GoesOn Arm.outlines done found.1 more := by
  cases arms with
  | nil => exact walks_pure hsees (goesOn_done rfl done)
  | cons arm rest =>
    obtain ⟨location, pattern, guard, body⟩ := arm
    obtain ⟨harm, hrest⟩ := hopen.scope
    obtain ⟨hguard, hbody⟩ := harm.second.both
    refine quiet_setFlow.walks hsees fun _ b hsees => ?_
    have hnext (declare : Check (Option Pattern)) (hdeclare : ∀ c, c.Sees scopes.enter →
        WalksAt c scopes.enter declare ((pattern.map Pattern.outline).getD []) fun part more =>
          more = (part.map Pattern.outline).getD []) :
        WalksAt b scopes (inScope (do
          let pattern ← declare
          let guard ← checkExpr guard
          let flow ← getFlow
          let body ← checkStmts body []
          return (pattern, guard, flow.truncate outer, body)) >>= fun found => getFlow >>= fun flow =>
            checkArms outer rest found.2.2.1 (after.meet (flow.truncate outer))
              (⟨location, found.1, found.2.1, found.2.2.2⟩ :: done))
          (Arm.outlines (⟨location, pattern, guard, body⟩ :: rest)) fun found more =>
            GoesOn Arm.outlines done found.1 more := by
      have hinside (c : Analysis) (hsees : c.Sees scopes.enter) : WalksAt c scopes.enter (do
          let pattern ← declare
          let guard ← checkExpr guard
          let flow ← getFlow
          let body ← checkStmts body []
          return (pattern, guard, flow.truncate outer, body))
          ((pattern.map Pattern.outline).getD [] ++ (guard.outline ++ Stmt.outlines body))
          fun found more => more = (found.1.map Pattern.outline).getD [] ++
            (found.2.1.outline ++ Stmt.outlines found.2.2.2) := by
        refine (hdeclare c hsees).bind fun first done d hfirst hsees => ?_
        refine (walks_expr guard d _ hsees hguard).bind fun second more e hsecond hsees => ?_
        refine quiet_getFlow.walks hsees fun flow e hsees => ?_
        refine (walks_stmts body [] e _ hsees hbody).map fun third others hthird => ?_
        rw [hfirst, hsecond, hthird.all]
      refine (walks_inScope hsees hinside).bind fun found first c hfirst hsees => ?_
      obtain ⟨inner, rfl, rfl⟩ := hfirst
      refine quiet_getFlow.walks hsees fun flow d hsees => ?_
      refine (walks_arms outer rest _ _ (⟨location, found.1, found.2.1, found.2.2.2⟩ :: done) d _ hsees hrest).mono
        fun result more h => h.step fun parts => ?_
      rw [Arm.outlines]
      rfl
    cases pattern with
    | none => exact hnext (pure none) fun c hsees => walks_pure hsees rfl
    | some pattern =>
      exact hnext (some <$> declarePattern pattern) fun c hsees =>
        (walks_pattern pattern c _ hsees nofun).map fun part more h => h
termination_by structural arms

theorem walks_function (function : Function) (a : Analysis) (scopes : Scopes) (hsees : a.Sees scopes)
    (hfresh : Unresolved function.outline) :
    WalksAt a scopes (checkFunction function) function.outline fun part more => more = part.outline := by
  obtain ⟨name, isProc, clauses⟩ := function
  exact (walks_functionBody (fun flow b hsees => walks_clauses flow clauses [] b scopes hsees hfresh) hsees).map
    fun parts more h => h.all
termination_by structural function

theorem walks_clauses (flow : FlowState) (clauses done : List Clause) (a : Analysis) (scopes : Scopes)
    (hsees : a.Sees scopes) (hfresh : Unresolved (Clause.outlines clauses)) :
    WalksAt a scopes (checkClauses flow clauses done) (Clause.outlines clauses) (GoesOn Clause.outlines done) := by
  cases clauses with
  | nil => exact walks_pure hsees (goesOn_done rfl done)
  | cons clause rest =>
    obtain ⟨location, parameters, body⟩ := clause
    obtain ⟨hclause, hrest⟩ := (@unresolved_append [.scope _] _).mp hfresh
    obtain ⟨hparameters, hbody⟩ := unresolved_append.mp (unresolved_scope.mp hclause)
    refine quiet_setFlow.walks hsees fun _ b hsees => ?_
    change WalksAt b scopes ((inScope do
        let parameters ← declareParameters parameters []
        let body ← checkStmts body []
        return (parameters, body)) >>= fun found => checkClauses flow rest (⟨location, found.1, found.2⟩ :: done)) _ _
    have hinside (c : Analysis) (hsees : c.Sees scopes.enter) : WalksAt c scopes.enter (do
        let parameters ← declareParameters parameters []
        let body ← checkStmts body []
        return (parameters, body)) (parameters.flatMap Pattern.outline ++ Stmt.outlines body)
        fun found more => more = found.1.flatMap Pattern.outline ++ Stmt.outlines found.2 := by
      refine (walks_parameters parameters [] hsees nofun).bind fun first done d hfirst hsees => ?_
      refine (walks_stmts body [] d _ hsees (.inl hbody)).map fun second more hsecond => ?_
      rw [hfirst.all, hsecond.all]
    refine (walks_inScope hsees hinside).bind fun found first c hfirst hsees => ?_
    obtain ⟨inner, rfl, rfl⟩ := hfirst
    refine (walks_clauses flow rest (⟨location, found.1, found.2⟩ :: done) c _ hsees hrest).mono
      fun result more h => h.step fun parts => ?_
    rw [Clause.outlines]
    rfl
termination_by structural clauses

end

section Programs

/-- A statement of a program whose functions are declared. -/
inductive Declared : Stmt → Prop
  | function (location : Location) (declaration : Function) (id : BindingId) :
    Declared (.function location declaration { binding := some id, isGlobal := true })
  | other {stmt : Stmt} (hfunction : stmt.isFunction = false) : Declared stmt

theorem walks_hoistFunctions (stmts hoisted : List Stmt) (hsees : a.Sees scopes) (houtermost : scopes.outer = []) :
    WalksAt a scopes (hoistFunctions hoisted stmts) (stmts.flatMap Stmt.early) fun result more =>
      ∃ parts, result = hoisted.reverse ++ parts ∧ more = parts.flatMap Stmt.early ∧
        parts.map Stmt.late = stmts.map Stmt.late ∧ stmtsCallFree parts = stmtsCallFree stmts ∧
        ∀ part ∈ parts, Declared part := by
  induction stmts generalizing hoisted a scopes with
  | nil => exact walks_pure hsees ⟨[], (List.append_nil _).symm, rfl, rfl, rfl, nofun⟩
  | cons stmt rest ih =>
    have hother (hfunction : stmt.isFunction = false)
        (hskip : hoistFunctions hoisted (stmt :: rest) = hoistFunctions (stmt :: hoisted) rest) :
        WalksAt a scopes (hoistFunctions hoisted (stmt :: rest)) ((stmt :: rest).flatMap Stmt.early) fun result more =>
          ∃ parts, result = hoisted.reverse ++ parts ∧ more = parts.flatMap Stmt.early ∧
            parts.map Stmt.late = (stmt :: rest).map Stmt.late ∧
            stmtsCallFree parts = stmtsCallFree (stmt :: rest) ∧ ∀ part ∈ parts, Declared part := by
      rw [hskip, List.flatMap_cons, Stmt.early_eq_nil hfunction]
      refine (ih (stmt :: hoisted) hsees houtermost).mono fun result more h => ?_
      obtain ⟨parts, rfl, rfl, hlate, hfree, hparts⟩ := h
      refine ⟨stmt :: parts, by simp, ?_, congrArg (_ :: ·) hlate, congrArg (stmt.callFree && ·) hfree,
        List.forall_mem_cons.mpr ⟨.other hfunction, hparts⟩⟩
      rw [List.flatMap_cons, Stmt.early_eq_nil hfunction, List.nil_append]
    cases stmt with
    | function location declaration resolution =>
      change WalksAt a scopes ((do
        let id ← declareName declaration.name location .initialized
        modify fun a => { a with symbols := a.symbols.modify id fun symbol => { symbol with hoisted := true } }
        return id) >>= fun id => hoistFunctions (.function location declaration ⟨some id, true⟩ :: hoisted) rest)
        ([.declares declaration.name resolution] ++ rest.flatMap Stmt.early) _
      refine (walks_hoisted hsees houtermost).bind fun id first b hfirst hsees => ?_
      refine (ih _ hsees (by rwa [Scopes.outer_afterAll])).mono fun result more h => ?_
      obtain ⟨parts, rfl, rfl, hlate, -, hparts⟩ := h
      refine ⟨.function location declaration ⟨some id, true⟩ :: parts, by simp, ?_, congrArg (_ :: ·) hlate, rfl,
        List.forall_mem_cons.mpr ⟨.function location declaration id, hparts⟩⟩
      rw [hfirst]
      rfl
    | _ => exact hother rfl rfl

theorem walks_program (stmts done : List Stmt) (hsees : a.Sees scopes) (hdeclared : ∀ stmt ∈ stmts, Declared stmt)
    (hopen : Undecided (stmts.flatMap Stmt.late) (stmtsCallFree stmts)) :
    WalksAt a scopes (checkStmts stmts done) (stmts.flatMap Stmt.late) fun result more =>
      ∃ parts, result = done.reverse ++ parts ∧ more = parts.flatMap Stmt.late ∧
        parts.flatMap Stmt.early = stmts.flatMap Stmt.early := by
  induction stmts generalizing done a scopes with
  | nil => exact walks_pure hsees ⟨[], (List.append_nil _).symm, rfl, rfl⟩
  | cons stmt rest ih =>
    obtain ⟨hstmt, hrest⟩ := List.forall_mem_cons.mp hdeclared
    rw [List.flatMap_cons] at hopen ⊢
    obtain ⟨hfirst, hothers⟩ := hopen.both
    have hpart : WalksAt a scopes (checkStmt stmt) stmt.late fun part more =>
        more = part.late ∧ part.early = stmt.early := by
      cases hstmt with
      | function location declaration id =>
        obtain ⟨name, isProc, clauses⟩ := declaration
        change WalksAt a scopes
          (declaredBody id (functionBody fun flow => checkClauses flow clauses []) >>= fun clauses =>
          pure (Stmt.function location ⟨name, isProc, clauses⟩ { binding := some id, isGlobal := true })) _ _
        exact (walks_declaredBody (fun b hsees => walks_functionBody (fun flow b hsees =>
          walks_clauses flow clauses [] b _ hsees (hfirst.resolve_right Bool.false_ne_true)) hsees) hsees).map
          fun parts more hmore => ⟨hmore.all, rfl⟩
      | other hfunction =>
        rw [Stmt.late_eq_outline hfunction] at hfirst ⊢
        refine (walks_stmt stmt a scopes hsees hfirst).mono fun part more h => ?_
        have hpart := h.2.trans hfunction
        exact ⟨h.1.trans (Stmt.late_eq_outline hpart).symm,
          (Stmt.early_eq_nil hpart).trans (Stmt.early_eq_nil hfunction).symm⟩
    refine hpart.bind fun part first b hfirst hsees => ?_
    refine (ih (part :: done) hsees hrest hothers).mono fun result more h => ?_
    obtain ⟨parts, rfl, rfl, hearly⟩ := h
    refine ⟨part :: parts, by simp, ?_, ?_⟩
    · rw [List.flatMap_cons, hfirst.1]
    · rw [List.flatMap_cons, List.flatMap_cons, hfirst.2, hearly]

/-- The outermost scope ends with the program. -/
theorem hushed_exitScope (houter : a.outerScopes = []) : Hushed a (exitScope a).2 := by
  cases a
  cases houter
  exact hushed_of_eq rfl rfl rfl rfl rfl

end Programs

end Check

namespace Program

open Check

/-- The look at a program, which sees its functions first. -/
def looked (program : Program) : List Stmt × Analysis :=
  let hoisted := hoistFunctions [] program.statements {}
  checkStmts hoisted.1 [] hoisted.2

/-- The analysis of a program when its last scope is closed. -/
def closed (program : Program) : Analysis :=
  (checkPendingReferences (exitScope program.looked.2).2).2

theorem analyze_eq (program : Program) : program.analyze =
    { program :=
        { statements := program.looked.1
          analyzed := program.analyzed || program.closed.errors.isEmpty
          bindingCount := program.closed.symbols.size }
      diagnostics := program.closed.errors.toList } :=
  rfl

/-- It is for an analysis to say where the names of a program lead. -/
def Undecided (program : Program) : Prop :=
  OwnScript.Undecided program.outline program.callFree

theorem walked_analyze (program : Program) (hopen : program.Undecided) :
    Walked {} {} program.outline program.analyze.program.outline program.looked.2 := by
  obtain ⟨early, ⟨hoisted, hresult, rfl, hlate, hfree, hdeclared⟩, hhoist⟩ :=
    walks_hoistFunctions program.statements [] sees_initial rfl
  obtain rfl : _ = hoisted := hresult.trans (List.nil_append _)
  have hsame : (hoistFunctions [] program.statements {}).1.flatMap Stmt.late =
    program.statements.flatMap Stmt.late := by
    rw [List.flatMap_def, hlate, List.flatMap_def]
  have hopen := hopen.second
  rw [← hsame, callFree, ← hfree] at hopen
  obtain ⟨late, ⟨parts, hparts, rfl, hearly⟩, hwalk⟩ := walks_program _ [] hhoist.sees hdeclared hopen
  obtain rfl : program.looked.1 = parts := hparts.trans (List.nil_append _)
  rw [outline, outline, analyze_eq, hearly, ← hsame]
  exact hhoist.trans hwalk

theorem hushed_closed (program : Program) (hopen : program.Undecided) : Hushed program.looked.2 program.closed :=
  (hushed_exitScope (program.walked_analyze hopen).outer).trans (quiet_checkPendingReferences _)

/-- A rule is reported if and only if the program breaks it. -/
theorem reports_iff_breaks (program : Program) (hopen : program.Undecided) {rule : ErrorKind}
    (hrule : rule ∈ scopingRules) :
    (∃ diagnostic ∈ program.analyze.diagnostics, diagnostic.kind = rule) ↔ program.Breaks rule := by
  have hwalked := program.walked_analyze hopen
  have hreported : (∃ diagnostic ∈ program.analyze.diagnostics, diagnostic.kind = rule) ↔
      program.closed.Reports rule := by
    simp only [analyze_eq, Array.mem_toList_iff, Reports]
  have hnone : ¬ ({} : Analysis).Reports rule := by simp [Reports]
  rw [hreported, (program.hushed_closed hopen).reports rule hrule, hwalked.reports rule hrule,
    obeys_congr _ _ hwalked.bare _ _ (.refl {}), Breaks, or_iff_right hnone, and_iff_right rfl]

/-- A program that is accepted obeys the rules of scoping. -/
theorem obeys_analyze {program : Program} (hopen : program.Undecided) (haccepted : program.analyze.diagnostics = [])
    {rule : ErrorKind} (hrule : rule ∈ scopingRules) : Obeys rule {} program.analyze.program.outline := by
  rw [obeys_congr _ _ (program.walked_analyze hopen).bare _ _ (.refl {})]
  refine Classical.byContradiction fun hbroken => ?_
  obtain ⟨_, hmem, _⟩ := (program.reports_iff_breaks hopen hrule).mpr hbroken
  rw [haccepted] at hmem
  cases hmem

/-- The names of a program that is accepted are resolved. -/
theorem lexicallyResolved_analyze {program : Program} (hopen : program.Undecided)
    (haccepted : program.analyze.diagnostics = []) : program.analyze.program.LexicallyResolved := by
  have hwalked := program.walked_analyze hopen
  have hobeys := fun rule => @obeys_analyze program hopen haccepted rule
  exact ⟨hwalked.resolves hobeys, (hwalked.distinct (hobeys _ (by decide))).1,
    (hwalked.numbered hobeys).mono (program.hushed_closed hopen).grown.size⟩

/-- An analysis resolves names lexically. It reports that a rule of scoping is broken if and only if the program
breaks it somewhere. In a program that it accepts, a name carries the number of the innermost declaration that is
visible there, and declarations carry numbers of their own. -/
theorem analyze_resolves (program : Program) (hfresh : program.IsFresh) :
    (∀ rule ∈ scopingRules,
      (∃ diagnostic ∈ program.analyze.diagnostics, diagnostic.kind = rule) ↔ program.Breaks rule) ∧
    bare program.analyze.program.outline = bare program.outline ∧
    (program.analyze.diagnostics = [] → program.analyze.program.LexicallyResolved) :=
  ⟨fun _ hrule => program.reports_iff_breaks (.inl hfresh) hrule, (program.walked_analyze (.inl hfresh)).bare,
    lexicallyResolved_analyze (.inl hfresh)⟩

/-- A loop in a loop, whose bodies declare a name again that is declared around them, and a function that is used
before its declaration. -/
def shadowedLoops : Program :=
  { statements :=
      [.declare {} "n" (.literal {} (.scalar (.int 1))) {},
        .forever {} (.block {}
          [.whileLoop {} (.binary {} .less (.name ⟨{}, "n", {}⟩) (.call {} (.name ⟨{}, "limit", {}⟩) []))
            (.declare {} "n" (.name ⟨{}, "n", {}⟩) {}),
          .forLoop {} "n" none (.name ⟨{}, "n", {}⟩) (.name ⟨{}, "n", {}⟩) (.print {} (.name ⟨{}, "n", {}⟩)),
          .leave {}]),
        .function {} ⟨"limit", false, [⟨{}, [], [.giveBack {} (.literal {} (.scalar (.int 2)))]⟩]⟩ {}] }

theorem analyze_resolves_shadowedLoops :
    shadowedLoops.analyze.diagnostics = [] ∧ shadowedLoops.analyze.program.LexicallyResolved := by
  have hfresh : shadowedLoops.IsFresh := by
    unfold IsFresh Unresolved
    decide +kernel
  have haccepted : shadowedLoops.analyze.diagnostics = [] := by decide +kernel
  exact ⟨haccepted, (shadowedLoops.analyze_resolves hfresh).2.2 haccepted⟩

end Program

end OwnScript
