import Verdict.Proofs.TwinRuns

/-! # Watching a run

A run of generation with a log of what it makes: the states that it reaches, the values and formulas that it
holds on to while it goes on, and each symbolic constant together with the generator at that moment. The log
is there also where the run stops. Only commands in which no constants are made are watched from outside.

Watching changes nothing: the outcome is that of the run itself (`Watch.shows_function`). -/

namespace Verdict

/-- What is seen of a run. -/
inductive Event where
  | state (s : SymState)
  | value (v : Value)
  | expr (e : Expr)
  | formula (f : Formula)
  /-- A constant of a type is made. The generator is that before. -/
  | constant (v : Value) (t : Ty) (g : Generator)

/-- Generation with a log of what is seen of it. -/
abbrev WatchM := StateT Generator (ExceptT Stop (StateM (List Event)))

namespace Watch

open Generation

/-- The outcome of a run, and the log after it. -/
def outcome {α : Type} (w : WatchM α) (g : Generator) (es : List Event) :
    Except Stop (α × Generator) × List Event := (w.run g).run.run es

/-- A step of generation, with what is seen of its result. -/
def watch {α : Type} (seen : α → List Event) (m : GenM α) : WatchM α := fun g => ExceptT.mk fun es =>
  match m.run g with
  | .ok (a, g') => (.ok (a, g'), es ++ seen a)
  | .error e => (.error e, es)

/-- A state is reached. -/
def reach (s : SymState) : WatchM SymState := watch (fun s => [.state s]) (pure s)

/-- A step that leads to a state. -/
def step (m : GenM SymState) : WatchM SymState := watch (fun s => [.state s]) m

/-- A step of which nothing is seen. -/
def unseen {α : Type} (m : GenM α) : WatchM α := watch (fun _ => []) m

/-- The evaluation of a value. -/
def value (ctx : GenContext) (s : SymState) (subject : Subject) (v : Value) : WatchM (Value × SymState) :=
  watch (fun r => [.value r.1, .state r.2]) (Generation.value ctx s subject v)

def formula (ctx : GenContext) (s : SymState) (subject : Subject) (f : Formula) :
    WatchM (Formula × SymState) :=
  watch (fun r => [.formula r.1, .state r.2]) (Generation.formula ctx s subject f)

def constant (x : String) (t : Ty) (isPrimed : Bool) : WatchM Value := do
  let g ← get
  watch (fun v => [.constant v t g]) (Generation.constant x t isPrimed)

def havoc (s : SymState) : List String → WatchM SymState
  | [] => return s
  | x :: xs => do
    match s.isVariable x, s.frame.type? x with
    | true, some t => havoc (← reach (s.set x (← constant x t true))) xs
    | _, _ => havoc s xs

def iteration (ctx : GenContext) (s : SymState) (subject : Subject) (written : Names)
    (invariant : Formula) : WatchM SymState := do
  let h ← havoc s written.members
  let (inv, h) ← formula ctx h subject invariant
  reach (h.assume inv)

mutual

def run (ctx : GenContext) (s : SymState) (subject : Subject) : Command → WatchM SymState
  | .declare d => do reach (s.set d.name (← constant d.name d.type false))
  | .cond bs _ => conditional ctx s subject bs
  | .whileLoop c inv variant body _ => do
    let s ← step (check ctx s .invariantEntry subject inv)
    let h ← iteration ctx s subject (Command.affectedAll body) inv
    let (guard, h) ← formula ctx h subject c
    let b ← reach (h.assume guard)
    let (before, b) ← watch (fun r => r.1.toList.map .expr ++ [.state r.2])
      (measureBefore ctx b subject variant)
    let b ← block ctx b body
    let b ← step (check ctx b .invariantPreserved subject inv)
    unseen (measureAfter ctx b subject variant before)
    reach (h.assume guard.negate)
  | .forRange i lo hi inv body _ => do
    let (lo, s) ← value ctx s subject lo
    let (hi, s) ← value ctx s subject hi
    let frame ← unseen (inScope (s.frame.step (.declare ⟨i, .i32, false, none⟩)))
    let inner ← reach { s.set i lo with frame }
    let inner ← step (check ctx inner .invariantEntry subject inv)
    let h ← iteration ctx inner subject ((Command.affectedAll body).insert i) inv
    let b ← reach (h.assume (rangeGuard i h hi))
    let b ← block ctx b body
    unseen (noteLoss (!b.isVariable i))
    let next ← watch (fun v => [.value v])
      (keep (Expr.toValue (.op .add (b.valueOf i).toExpr (.num 1))))
    let _ ← step (check ctx (b.set i next) .invariantPreserved subject inv)
    reach { (h.assume (rangeGuard i h hi).negate).forget i with frame := s.frame }
  | c => step (Generation.run ctx s subject c)

def conditional (ctx : GenContext) (s : SymState) (subject : Subject) : Branches → WatchM SymState
  | .otherwise b => do
    let e ← block ctx s b
    step (copyValues e s)
  | .branch c b rest => do
    let (cond, s) ← formula ctx s subject c
    let t ← block ctx (← reach (s.assume cond)) b
    let e ← alternative ctx (← reach (s.assume cond.negate)) subject rest
    step (merge cond t e s)

def alternative (ctx : GenContext) (s : SymState) (subject : Subject) : Branches → WatchM SymState
  | .otherwise b => block ctx s b
  | .branch c b rest => do
    let (cond, s) ← formula ctx s subject c
    let t ← block ctx (← reach (s.assume cond)) b
    let e ← alternative ctx (← reach (s.assume cond.negate)) subject rest
    step (merge cond t e s)

def block (ctx : GenContext) (s : SymState) : List Command → WatchM SymState
  | [] => return s
  | c :: cs => do
    let frame ← unseen (inScope (s.frame.step c))
    let s ← run ctx s ⟨c.origin, c.print⟩ c
    block ctx { s with frame } cs

end

/-- The run of a function once its inputs are constants. -/
def entered (ctx : GenContext) (frame : Frame) (f : Function) : WatchM Unit := do
  let s ← reach (initial frame f)
  let (pre, s) ← formula ctx s ⟨none, "requires " ++ f.precondition.print⟩ f.precondition
  let s ← block ctx (← reach (s.assume pre)) f.body
  let (result, s) ← value ctx s ⟨f.result.origin, "returns " ++ f.result.print⟩ f.result
  let s ← reach (s.set resultName result)
  let _ ← step (check ctx s .postcondition ⟨none, "ensures " ++ f.postcondition.print⟩ f.postcondition)

def function (modes : Modes) (functions : List Function) (f : Function) : WatchM Unit := do
  let frame ← unseen (inScope (Frame.entry functions f))
  unseen (modify fun g => { g with symbols := inputSymbols f })
  entered (contextOf modes functions f) frame f

/-! ### Watching changes nothing -/

/-- Whether a watched run has the outcome of a run, and only adds to the log. -/
def Shows {α : Type} (w : WatchM α) (m : GenM α) : Prop :=
  ∀ g es, ∃ new, outcome w g es = (m.run g, es ++ new)

variable {α β : Type} {w : WatchM α} {m : GenM α}

theorem outcome_bind (w : WatchM α) (k : α → WatchM β) (g : Generator) (es : List Event) :
    outcome (w >>= k) g es = match outcome w g es with
      | (.ok (a, g'), es') => outcome (k a) g' es'
      | (.error e, es') => (.error e, es') := by
  simp only [outcome, StateT.run_bind, ExceptT.run_bind]
  obtain ⟨r, es'⟩ := (w.run g).run.run es
  cases r <;> rfl

theorem outcome_watch (seen : α → List Event) (m : GenM α) (g : Generator) (es : List Event) :
    outcome (watch seen m) g es = match m.run g with
      | .ok (a, g') => (.ok (a, g'), es ++ seen a)
      | .error e => (.error e, es) := rfl

theorem outcome_constant (x : String) (t : Ty) (isPrimed : Bool) (g : Generator) (es : List Event) :
    outcome (constant x t isPrimed) g es =
      outcome (watch (fun v => [.constant v t g]) (Generation.constant x t isPrimed)) g es := rfl

theorem shows_pure (a : α) : Shows (pure a) (pure a) := fun _ es => ⟨[], by rw [List.append_nil]; rfl⟩

theorem Shows.bind {k : α → WatchM β} {f : α → GenM β} (h : Shows w m) (hk : ∀ a, Shows (k a) (f a)) :
    Shows (w >>= k) (m >>= f) := by
  intro g es
  obtain ⟨new, hnew⟩ := h g es
  rw [outcome_bind, hnew, StateT.run_bind]
  cases hrun : m.run g with
  | error e => exact ⟨new, rfl⟩
  | ok r =>
    obtain ⟨new', hnew'⟩ := hk r.1 r.2 (es ++ new)
    refine ⟨new ++ new', ?_⟩
    rw [← List.append_assoc]
    exact hnew'

theorem shows_watch (seen : α → List Event) (m : GenM α) : Shows (watch seen m) m := by
  intro g es
  rw [outcome_watch]
  cases m.run g with
  | error e => exact ⟨[], by rw [List.append_nil]⟩
  | ok r => exact ⟨seen r.1, rfl⟩

theorem Shows.after_reach {s : SymState} {k : SymState → WatchM α} (h : Shows (k s) m) :
    Shows (reach s >>= k) m := by
  have hbind := (shows_watch (fun s => [.state s]) (pure s)).bind (k := fun _ => k s) fun _ => h
  rw [pure_bind] at hbind
  exact hbind

theorem shows_constant (x : String) (t : Ty) (isPrimed : Bool) :
    Shows (constant x t isPrimed) (Generation.constant x t isPrimed) := by
  intro g es
  rw [outcome_constant]
  exact shows_watch _ _ g es

theorem shows_havoc (xs : List String) (s : SymState) : Shows (havoc s xs) (Generation.havoc s xs) := by
  induction xs generalizing s with
  | nil => exact shows_pure s
  | cons x xs ih =>
    unfold havoc Generation.havoc
    cases s.isVariable x with
    | false => exact ih s
    | true =>
      cases s.frame.type? x with
      | none => exact ih s
      | some t => exact (shows_constant _ _ _).bind fun v => Shows.after_reach (ih _)

variable {ctx : GenContext} {s : SymState} {subject : Subject}

theorem shows_iteration (written : Names) (inv : Formula) :
    Shows (iteration ctx s subject written inv) (Generation.iteration ctx s subject written inv) := by
  refine (shows_havoc _ _).bind fun h => (shows_watch _ _).bind fun r => ?_
  exact shows_watch _ _

mutual

theorem shows_run (c : Command) (s : SymState) (subject : Subject) :
    Shows (run ctx s subject c) (Generation.run ctx s subject c) :=
  match c with
  | .declare d => (shows_constant _ _ _).bind fun v => shows_watch _ _
  | .cond bs o => shows_conditional bs s subject
  | .whileLoop c inv variant body o => by
    rw [run_whileLoop]
    refine (shows_watch _ _).bind fun s₁ => (shows_iteration _ _).bind fun h =>
      (shows_watch _ _).bind fun r => Shows.after_reach ?_
    refine (shows_watch _ _).bind fun before => (shows_block body _).bind fun b =>
      (shows_watch _ _).bind fun b₁ => (shows_watch _ _).bind fun _ => ?_
    exact shows_watch _ _
  | .forRange i lo hi inv body o => by
    refine (shows_watch _ _).bind fun lo => (shows_watch _ _).bind fun hi =>
      (shows_watch _ _).bind fun frame => Shows.after_reach ?_
    refine (shows_watch _ _).bind fun inner => (shows_iteration _ _).bind fun h => Shows.after_reach ?_
    refine (shows_block body _).bind fun b => (shows_watch _ _).bind fun _ =>
      (shows_watch _ _).bind fun next => (shows_watch _ _).bind fun _ => ?_
    exact shows_watch _ _
  | .bind d v | .bindTuple ds v o | .assign a | .assignAll as o | .assert f o | .assume f o
  | .invariant f o | .noop o => by
    simp only [run]
    exact shows_watch _ _

theorem shows_conditional (bs : Branches) (s : SymState) (subject : Subject) :
    Shows (conditional ctx s subject bs) (Generation.conditional ctx s subject bs) :=
  match bs with
  | .otherwise b => (shows_block b s).bind fun e => shows_watch _ _
  | .branch c b rest => by
    refine (shows_watch _ _).bind fun r => Shows.after_reach ?_
    refine (shows_block b _).bind fun t => Shows.after_reach ?_
    exact (shows_alternative rest _ subject).bind fun e => shows_watch _ _

theorem shows_alternative (bs : Branches) (s : SymState) (subject : Subject) :
    Shows (alternative ctx s subject bs) (Generation.alternative ctx s subject bs) :=
  match bs with
  | .otherwise b => shows_block b s
  | .branch c b rest => by
    refine (shows_watch _ _).bind fun r => Shows.after_reach ?_
    refine (shows_block b _).bind fun t => Shows.after_reach ?_
    exact (shows_alternative rest _ subject).bind fun e => shows_watch _ _

theorem shows_block (cs : List Command) (s : SymState) :
    Shows (block ctx s cs) (Generation.block ctx s cs) :=
  match cs with
  | [] => shows_pure s
  | c :: cs => (shows_watch _ _).bind fun _ => (shows_run c s _).bind fun _ => shows_block cs _

end

/-- A watched run of a function has the outcome of the run. -/
theorem shows_function (modes : Modes) (functions : List Function) (f : Function) :
    Shows (function modes functions f) (Generation.function modes functions f) := by
  refine (shows_watch _ _).bind fun frame => (shows_watch _ _).bind fun _ => Shows.after_reach ?_
  refine (shows_watch _ _).bind fun r => Shows.after_reach ?_
  refine (shows_block f.body _).bind fun s => (shows_watch _ _).bind fun r₁ => Shows.after_reach ?_
  exact (shows_watch _ _).bind fun _ => shows_pure ()

end Watch

end Verdict
