import OwnScript.Proofs.Globals.Places
import OwnScript.Proofs.Lowering.Layout
import OwnScript.Proofs.Program.Timing

/-!
Covered code, one operation at a time. Each rule says what has to be covered behind an operation so that the
code in front of it is. A function may run where its closure is made; the first functions of a global may run
where the program may read the global.
-/

namespace OwnScript

/-- The slots of globals. -/
def GlobalTable.image (globals : GlobalTable) (defined : Globals) : Set Nat :=
  { slot | ∃ id ∈ defined, globals.slots[id]? = some slot }

/-- So many operations from an offset on find the globals that they read defined. -/
abbrev Listing.Covered {tracked : Prop} (F : Listing tracked) (originals : Originals) (n offset : Nat)
    (defined : Set Nat) : Prop :=
  Covers originals n { chunk := F.chunk, offset, defined }

section Operations

variable {tracked : Prop} {F : Listing tracked} {originals : Originals} {n p a b : Nat} {height : Option Nat}
  {op : Opcode} {location : Location} {defined : Set Nat}

/-- An instruction in front of covered code. -/
theorem covered_step {place : Place} (hinstruction : place.chunk.instructionAt? place.offset = some (op, a, b))
    (hreads : op.readsGlobal = true → a ∈ place.defined) (hloose : place.Hides originals op a ∨ place.loose = ∅)
    (hnext : ∀ offset ∈ op.targets place.offset a place.met, Covers originals n (place.next originals op a offset)) :
    Covers originals n place := by
  refine Covers.fewer
    (covers_succ.mpr ⟨op, a, b, hinstruction, hreads, hloose.imp_right fun h function hin => ?_, hnext⟩)
  rw [h] at hin
  exact hin.elim

theorem covered_quiet (hhas : F.Has p height op a b location) (hquiet : op.isQuiet = true)
    (hnext : F.Covered originals n (p + op.size) defined) : F.Covered originals n p defined := by
  obtain ⟨hreads, htargets, hplace⟩ :=
    @next_quiet originals { chunk := F.chunk, offset := p, defined } op hquiet a
  refine covered_step hhas.instruction (fun h => by rw [hreads] at h; cases h) (.inr rfl) fun offset hoffset => ?_
  rw [htargets] at hoffset
  obtain rfl := List.mem_singleton.mp hoffset
  rw [hplace]
  exact hnext

/-- Control does not go on. -/
theorem covered_end (hhas : F.Has p height op a b location) (hquiet : op.readsGlobal = false)
    (hends : ∀ met, op.targets p a met = []) : F.Covered originals n p defined := by
  refine covered_step hhas.instruction (fun h => by rw [hquiet] at h; cases h) (.inr rfl) fun offset hoffset => ?_
  rw [hends] at hoffset
  cases hoffset

theorem covered_return (hhas : F.Has p height .ret a b location) : F.Covered originals n p defined :=
  covered_end hhas rfl fun _ => rfl

/-- Control goes on elsewhere. -/
theorem covered_jump {target : Nat} (hjumps : F.Jumps p height .jump location target)
    (hnext : F.Covered originals n target defined) : F.Covered originals n p defined := by
  obtain ⟨distance, hhas, rfl⟩ := hjumps
  refine covered_step hhas.instruction (fun h => by cases h) (.inr rfl) fun offset hoffset => ?_
  obtain rfl := List.mem_singleton.mp hoffset
  exact hnext

/-- Control goes on elsewhere or here. -/
theorem covered_branch {target : Nat} (hop : op = .jumpIfFalse ∨ op = .jumpIfTrue)
    (hjumps : F.Jumps p height op location target) (hthere : F.Covered originals n target defined)
    (hhere : F.Covered originals n (p + 3) defined) : F.Covered originals n p defined := by
  obtain ⟨distance, hhas, rfl⟩ := hjumps
  have hnext (offset : Nat) (hoffset : offset ∈ [p + 3 + distance, p + 3]) : F.Covered originals n offset defined := by
    simp only [List.mem_cons, List.not_mem_nil, or_false] at hoffset
    rcases hoffset with rfl | rfl
    · exact hthere
    · exact hhere
  rcases hop with rfl | rfl
  · exact covered_step hhas.instruction (fun h => by cases h) (.inr rfl) hnext
  · exact covered_step hhas.instruction (fun h => by cases h) (.inr rfl) hnext

/-- Control goes back, so that one operation more can be looked at. -/
theorem covered_repeat {target : Nat} (hrepeats : F.Repeats p height location target)
    (hnext : F.Covered originals n target defined) : F.Covered originals (n + 1) p defined := by
  obtain ⟨distance, hhas, htarget⟩ := hrepeats
  refine covers_succ.mpr ⟨_, _, _, hhas.instruction, (fun h => by cases h), .inr fun _ h => h.elim,
    fun offset hoffset => ?_⟩
  obtain rfl := List.mem_singleton.mp hoffset
  have hback : p + 3 - distance = target := by omega
  exact hback.symm ▸ hnext

/-- A loop is covered if each of its turns is, provided that control goes back to covered code. -/
theorem covered_turns (hturn : ∀ m < n, F.Covered originals m p defined → F.Covered originals (m + 1) p defined) :
    F.Covered originals n p defined := by
  induction n with
  | zero => trivial
  | succ n ih => exact hturn n (Nat.lt_succ_self n) (ih fun m hm => hturn m (hm.trans (Nat.lt_succ_self n)))

theorem covered_pop (hhas : F.Has p height .pop a b location) (hnext : F.Covered originals n (p + 1) defined) :
    F.Covered originals n p defined :=
  covered_quiet hhas rfl hnext

/-- A global is read whose first functions may run. -/
theorem covered_global (hop : op = .getGlobal ∨ op = .moveGlobal) (hhas : F.Has p height op a b location)
    (hdefined : a ∈ defined) (hentered : ∀ m < n, ∀ function ∈ originals a, Entered originals m defined function)
    (hnext : F.Covered originals n (p + 3) defined) : F.Covered originals n p defined := by
  have hthen : ∀ offset ∈ [p + 3],
      Covers originals n { chunk := F.chunk, offset, defined, loose := originals a } := by
    intro offset hoffset
    obtain rfl := List.mem_singleton.mp hoffset
    exact hnext.settle rfl hentered
  rcases hop with rfl | rfl
  · exact covered_step hhas.instruction (fun _ => hdefined) (.inr rfl) hthen
  · exact covered_step hhas.instruction (fun _ => hdefined) (.inr rfl) hthen

/-- A global is given up. -/
theorem covered_disown (hhas : F.Has p height .moveGlobal a b location) (hdefined : a ∈ defined)
    {top : Option Nat} (hpop : F.Has (p + 3) top .pop 0 0 location)
    (hnext : F.Covered originals n (p + 4) defined) : F.Covered originals n p defined := by
  refine covered_step hhas.instruction (fun _ => hdefined) (.inr rfl) fun offset hoffset => ?_
  obtain rfl := List.mem_singleton.mp hoffset
  refine @covered_step originals n 0 0 .pop
    { chunk := F.chunk, offset := p + 3, defined, loose := originals a } hpop.instruction (fun h => by cases h)
    (.inl (.inl rfl)) fun offset hoffset => ?_
  obtain rfl := List.mem_singleton.mp hoffset
  exact hnext

theorem covered_setGlobal (hhas : F.Has p height .setGlobal a b location)
    (hnext : F.Covered originals n (p + 3) (insert a defined)) : F.Covered originals n p defined := by
  refine covered_step hhas.instruction (fun h => by cases h) (.inr rfl) fun offset hoffset => ?_
  obtain rfl := List.mem_singleton.mp hoffset
  exact hnext

/-- A closure is made of a function that may run. -/
theorem covered_closure {prototype : Prototype} (hhas : F.Has p height .closure a b location)
    (hfound : F.chunk.functions[a]? = some (some prototype))
    (hentered : ∀ m < n, Entered originals m defined (some prototype))
    (hnext : F.Covered originals n (p + 3) defined) : F.Covered originals n p defined := by
  refine covered_step hhas.instruction (fun h => by cases h) (.inr rfl) fun offset hoffset => ?_
  obtain rfl := List.mem_singleton.mp hoffset
  refine hnext.settle rfl fun m hm function hfunction => ?_
  cases hfound.symm.trans hfunction
  exact hentered m hm

/-- A global gets its first function. -/
theorem covered_hoist {prototype : Prototype} {slot : Nat} (hhas : F.Has p height .closure a b location)
    (hfound : F.chunk.functions[a]? = some (some prototype)) (horiginal : some prototype ∈ originals slot)
    {first second : Option Nat} (hset : F.Has (p + 3) first .setGlobal slot 0 location)
    (hpop : F.Has (p + 6) second .pop 0 0 location)
    (hnext : F.Covered originals n (p + 7) (insert slot defined)) : F.Covered originals n p defined := by
  refine covered_step hhas.instruction (fun h => by cases h) (.inr rfl) fun offset hoffset => ?_
  obtain rfl := List.mem_singleton.mp hoffset
  have hloose : { function | F.chunk.functions[a]? = some function } ⊆ originals slot := by
    intro function hfunction
    cases hfound.symm.trans hfunction
    exact horiginal
  refine @covered_step originals n slot 0 .setGlobal
    { chunk := F.chunk, offset := p + 3, defined, loose := { function | F.chunk.functions[a]? = some function } }
    hset.instruction (fun h => by cases h) (.inl (.inr ⟨rfl, hloose⟩)) fun offset hoffset => ?_
  obtain rfl := List.mem_singleton.mp hoffset
  refine @covered_step originals n 0 0 .pop
    { chunk := F.chunk, offset := p + 6, defined := insert slot defined,
      loose := { function | F.chunk.functions[a]? = some function } }
    hpop.instruction (fun h => by cases h) (.inl (.inl rfl)) fun offset hoffset => ?_
  obtain rfl := List.mem_singleton.mp hoffset
  exact hnext

/-- A pattern is tried, which may fail unless it accepts every value. -/
theorem covered_match {target : Nat} {matcher : Matcher} (hhas : F.Has p height .matchValue a b location)
    (hmatcher : F.chunk.matchers[a]? = some matcher) {first second third : Option Nat}
    (hjumps : F.Jumps (p + 5) first .jumpIfFalse location (target + 3))
    (hpop : F.Has (p + 8) second .pop 0 0 location) (hfail : F.Has (target + 3) third .pop 0 0 location)
    (hmatches : F.Covered originals n (p + 9) defined)
    (hfails : matcher.acceptsAll = false → F.Covered originals n (target + 4) defined) :
    F.Covered originals n p defined := by
  refine covered_step hhas.instruction (fun h => by cases h) (.inr rfl) fun offset hoffset => ?_
  obtain rfl := List.mem_singleton.mp hoffset
  obtain ⟨distance, hbranch, htarget⟩ := hjumps
  have hmet : F.chunk.matchers[a]?.any Matcher.acceptsAll = matcher.acceptsAll := by rw [hmatcher, Option.any_some]
  refine @covered_step originals n distance 0 .jumpIfFalse
    { chunk := F.chunk, offset := p + 5, defined, met := F.chunk.matchers[a]?.any Matcher.acceptsAll }
    hbranch.instruction (fun h => by cases h) (.inr rfl) fun offset hoffset => ?_
  have hoffset : offset ∈ if matcher.acceptsAll then [p + 8] else [p + 5 + 3 + distance, p + 8] := hmet ▸ hoffset
  have hthen : F.Covered originals n (p + 8) defined := covered_pop hpop hmatches
  cases haccepts : matcher.acceptsAll with
  | true =>
    rw [haccepts, if_pos rfl] at hoffset
    obtain rfl := List.mem_singleton.mp hoffset
    exact hthen
  | false =>
    rw [haccepts, if_neg (by decide), List.mem_pair] at hoffset
    rcases hoffset with rfl | rfl
    · rw [htarget]
      exact covered_pop hfail (hfails haccepts)
    · exact hthen

theorem DropCode.covered {outside q : Nat} {dropped : FrameScope} (hcode : DropCode F location outside dropped p q)
    (hnext : F.Covered originals n q defined) : F.Covered originals n p defined := by
  induction hcode with
  | nil => exact hnext
  | @cons var rest p after hhas _ ih =>
    have hquiet : var.dropOp.isQuiet = true ∧ var.dropOp.size = 1 := by
      unfold FrameVar.dropOp
      split
      · exact ⟨rfl, rfl⟩
      · exact ⟨rfl, rfl⟩
    exact covered_quiet hhas hquiet.1 (hquiet.2.symm ▸ ih hnext)

end Operations

variable {tracked : Prop} {globals : GlobalTable} {readiness : Readiness} {originals : Originals}

theorem GlobalTable.image_mono {defined wider : Globals} (hdefined : defined ⊆ wider) :
    globals.image defined ⊆ globals.image wider := by
  rintro slot ⟨id, hid, hslot⟩
  exact ⟨id, hdefined hid, hslot⟩

theorem Listing.Covered.mono {F : Listing tracked} {n offset : Nat} {defined wider : Set Nat}
    (hcovered : F.Covered originals n offset defined) (hdefined : defined ⊆ wider) :
    F.Covered originals n offset wider :=
  hcovered.more hdefined

/-- Where the program may read a global, the first functions of the global may run, as far as fewer
operations are looked at. -/
def Prepared (readiness : Readiness) (globals : GlobalTable) (originals : Originals) (n : Nat) : Prop :=
  ∀ m < n, ∀ (defined : Globals) (id : BindingId) (slot : Nat), globals.slots[id]? = some slot →
    readiness.May defined id → ∀ function ∈ originals slot, Entered originals m (globals.image defined) function

theorem Prepared.fewer {m n : Nat} (hprepared : Prepared readiness globals originals n) (hle : m ≤ n) :
    Prepared readiness globals originals m :=
  fun count hcount => hprepared count (hcount.trans_le hle)

/-- Wherever control leaves a loop, what its exits ask for is enough to go on. -/
structure Reaches (globals : GlobalTable) (originals : Originals) (F : Listing tracked) (n : Nat)
    (loop : Option LoopPlan) (exits : Exits) : Prop where
  leave : ∀ plan ∈ loop, ∀ defined, exits.leave defined → F.Covered originals n plan.leave (globals.image defined)
  skip : ∀ plan ∈ loop, ∀ defined, exits.skip defined → F.Covered originals n plan.skip (globals.image defined)

theorem Reaches.none {F : Listing tracked} {n : Nat} {exits : Exits} :
    Reaches globals originals F n none exits where
  leave _ h := by cases h
  skip _ h := by cases h

/-- The body of a loop, whose turns start where enough is defined. -/
theorem Reaches.turn {F : Listing tracked} {n outside leave skip : Nat} {exits : Exits} {entered : Globals}
    (hleave : ∀ defined, exits.fall defined → F.Covered originals n leave (globals.image defined))
    (hskip : F.Covered originals n skip (globals.image entered)) :
    Reaches globals originals F n (some ⟨outside, leave, skip⟩) (exits.turn entered) where
  leave _ hplan defined h := by
    cases hplan
    exact hleave defined h
  skip _ hplan defined h := by
    cases hplan
    exact hskip.mono (GlobalTable.image_mono h)

/-- A variable is read where it may be. -/
theorem covered_load {F : Listing tracked} {n p a : Nat} {height : Option Nat} {scope : FrameScope}
    {resolution : Resolution} {how : Emit.Access} {op : Opcode} {location : Location}
    (hhas : F.Has p height op a 0 location) (haccesses : Accesses globals scope resolution how op a)
    (hhow : how ≠ .set) {defined : Globals} (htimely : resolution.Timely readiness.May defined)
    (hprepared : Prepared readiness globals originals n)
    (hnext : F.Covered originals n (p + 3) (globals.image defined)) :
    F.Covered originals n p (globals.image defined) := by
  cases haccesses with
  | @global id slot hbinding hglobal hslot =>
    have hmay := htimely hglobal id hbinding
    have hop : how.global = .getGlobal ∨ how.global = .moveGlobal := by
      cases how with
      | set => exact absurd rfl hhow
      | get => exact .inl rfl
      | move => exact .inr rfl
    exact covered_global hop hhas ⟨id, hmay.1, hslot⟩ (fun m hm => hprepared m hm defined id _ hslot hmay) hnext
  | frame =>
    cases how with
    | set => exact absurd rfl hhow
    | get => exact covered_quiet hhas rfl hnext
    | move => exact covered_quiet hhas rfl hnext
  | captured =>
    cases how with
    | set => exact absurd rfl hhow
    | get => exact covered_quiet hhas rfl hnext
    | move => exact covered_quiet hhas rfl hnext

/-- Nothing is defined with the value of a name that is not that of a global. -/
theorem Resolution.define_subset {resolution : Resolution} (hlocal : resolution.isGlobal = false) (defined : Globals) :
    resolution.define defined ⊆ defined := by
  rintro id (h | ⟨h, -⟩)
  · exact h
  · rw [hlocal] at h
    cases h

/-- A global is defined with its value. -/
theorem GlobalTable.image_define_subset {resolution : Resolution} {id : BindingId} {slot : Nat}
    (hbinding : resolution.binding = some id) (hslot : globals.slots[id]? = some slot) (defined : Globals) :
    globals.image (resolution.define defined) ⊆ insert slot (globals.image defined) := by
  rintro other ⟨found, h | ⟨-, h⟩, hother⟩
  · exact .inr ⟨found, h, hother⟩
  · cases hbinding.symm.trans h
    exact .inl (Option.some.inj (hother.symm.trans hslot))

/-- A variable gets a value, and if it is that of a global, the global is defined from then on. -/
theorem covered_store {F : Listing tracked} {n p a : Nat} {height : Option Nat} {scope : FrameScope}
    {resolution : Resolution} {op : Opcode} {location : Location} (hhas : F.Has p height op a 0 location)
    (haccesses : Accesses globals scope resolution .set op a) {defined : Globals}
    (hnext : F.Covered originals n (p + 3) (globals.image (resolution.define defined))) :
    F.Covered originals n p (globals.image defined) := by
  cases haccesses with
  | global hbinding _ hslot =>
    exact covered_setGlobal hhas (hnext.mono (GlobalTable.image_define_subset hbinding hslot defined))
  | frame _ hlocal =>
    exact covered_quiet hhas rfl (hnext.mono (GlobalTable.image_mono (Resolution.define_subset hlocal defined)))
  | captured _ hlocal =>
    exact covered_quiet hhas rfl (hnext.mono (GlobalTable.image_mono (Resolution.define_subset hlocal defined)))

theorem acceptsAll_of_irrefutable {pattern : Option Pattern} (hpattern : pattern.all Pattern.isIrrefutable = true) :
    (pattern.elim .any Pattern.toMatcher).acceptsAll = true := by
  cases pattern with
  | none => rfl
  | some pattern =>
    cases pattern with
    | wildcard => rfl
    | bind => rfl
    | literal => cases hpattern
    | destructure => cases hpattern

end OwnScript
