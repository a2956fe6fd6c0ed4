import Verdict.Proofs.Functions
import Verdict.Proofs.Scopes

/-! # What generation keeps

A discipline asks something of the nodes of a program, which may be more once they have been encoded for
their side conditions, and promises something of the symbolic values and formulas that are made of them:
that they mention only symbolic constants, say, or that they have the sorts that are expected of them. Its
laws say that the operations on values and formulas keep the promise. Here this is shown for the steps in
which no constants are made.

A step is `Safe` if it keeps the promise for obligations and, where the discipline is about programs that
can be written down, does not stop out of scope. What a step does with a state is said by
`Discipline.Binds`. -/

namespace Verdict

open Scoping (Env)

/-- Whether a second map has all entries of a first one. -/
def NameMap.Under {α : Type} (m m' : NameMap α) : Prop := ∀ x a, m.get? x = some a → m'.get? x = some a

theorem NameMap.Under.refl {α : Type} (m : NameMap α) : m.Under m := fun _ _ h => h

theorem NameMap.Under.trans {α : Type} {m m' m'' : NameMap α} (h : m.Under m') (h' : m'.Under m'') :
    m.Under m'' := fun x a hx => h' x a (h x a hx)

/-- Whether some variables of an environment have replacements with a property. -/
def Substitution.Carries (keeps : Ty → Value → Prop) (e : Env) (σ : Substitution)
    (K : String → Prop) : Prop :=
  ∀ x, K x → ∀ t, e.scope.vars.get? x = some t → ∃ v, σ.get? x = some v ∧ keeps t v

/-- Whether the calls of functions have a property where the types of their results are expected. -/
abbrev CallsHave (functions : List Function) (has : Ty → Value → Prop)
    (cs : List Generation.Call) : Prop :=
  ∀ c ∈ cs, ∀ callee, (functions.find? fun f => f.name == c.function) = some callee →
    has callee.output (.call c.function c.args c.origin)

/-- What is asked of the nodes of a program, what is known of them once they have been encoded, and what
then holds of symbolic values and formulas. Maps give the types of the symbolic constants. -/
structure Discipline (functions : List Function) where
  /-- What is asked of a value where a type is expected. -/
  asksValue : Env → Ty → Value → Prop
  asksFormula : Env → Formula → Prop
  /-- What is known of a value of an expected type. -/
  hasValue : Env → Ty → Value → Prop
  hasFormula : Env → Formula → Prop
  /-- Whether commands have to be such as can be written down. -/
  written : Prop
  /-- What holds of a symbolic value of a type. -/
  keepsValue : NameMap Ty → Ty → Value → Prop
  keepsFormula : NameMap Ty → Formula → Prop
  keepsExpr : NameMap Ty → Expr → Prop
  /-- What holds of any value in a state, also where no command can read it. -/
  keepsEntry : NameMap Ty → Value → Prop := fun _ _ => True
  -- More constants do no harm.
  growValue : ∀ {m m' t v}, m.Under m' → keepsValue m t v → keepsValue m' t v
  growFormula : ∀ {m m' f}, m.Under m' → keepsFormula m f → keepsFormula m' f
  growExpr : ∀ {m m' a}, m.Under m' → keepsExpr m a → keepsExpr m' a
  -- Nodes of the program are encoded for their side conditions.
  passValue : ∀ {e t v Γ cs}, asksValue e t v → e.Within Γ →
    ((Generation.valueChecks (.ofScope Γ) v).run.run default).1 = .ok cs → hasValue e t v
  passFormula : ∀ {e f Γ r}, asksFormula e f → e.Within Γ →
    ((Encoding.formula (.ofScope Γ) f).run.run default).1 = .ok r → hasFormula e f
  valueChecks : ∀ {e m σ t v Γ cs}, hasValue e t v → e.Within Γ →
    ((Generation.valueChecks (.ofScope Γ) v).run.run default).1 = .ok cs →
    σ.Carries (keepsValue m) e (fun _ => True) → ∀ c ∈ cs, keepsFormula m (c.cond.subst σ)
  formulaChecks : ∀ {e m σ f Γ r}, hasFormula e f → e.Within Γ →
    ((Encoding.formula (.ofScope Γ) f).run.run default).1 = .ok r →
    σ.Carries (keepsValue m) e (fun _ => True) → ∀ c ∈ r.checks, keepsFormula m (c.cond.subst σ)
  valueCalls : ∀ {e t v}, hasValue e t v → e.functions = functions →
    CallsHave functions (hasValue e) ((v.visit Frame.outsideQuantifiers).filterMap Generation.call?)
  formulaCalls : ∀ {e f}, hasFormula e f → e.functions = functions →
    CallsHave functions (hasValue e) ((f.visit Frame.outsideQuantifiers).filterMap Generation.call?)
  arguments : ∀ {e name vs o callee}, hasValue e callee.output (.call name vs o) →
    e.functions = functions → (functions.find? fun f => f.name == name) = some callee →
      List.Forall₂ (hasValue e) (callee.inputs.map Declaration.type) vs
  -- Nodes of the program become symbolic.
  substValue : ∀ {e m σ t v}, hasValue e t v →
    σ.Carries (keepsValue m) e (· ∈ v.freeVars.members) → keepsValue m t (v.subst σ)
  substFormula : ∀ {e m σ f}, hasFormula e f →
    σ.Carries (keepsValue m) e (· ∈ f.freeVars.members) → keepsFormula m (f.subst σ)
  substExpr : ∀ {e m} {σ : Substitution} {a : Expr}, hasValue e .i32 a.toValue →
    σ.Carries (keepsValue m) e (· ∈ a.freeVars.members) → keepsExpr m (a.subst σ)
  -- What generation makes of symbolic values.
  var : ∀ {m x t}, m.get? x = some t → keepsValue m t (.var x)
  number : ∀ {m t v} (n : ℕ), keepsValue m t v → keepsValue m t (v.number.run n).1
  call : ∀ {e m vs args name o callee}, hasValue e callee.output (.call name vs o) →
    (functions.find? fun f => f.name == name) = some callee →
    List.Forall₂ (keepsValue m) (callee.inputs.map Declaration.type) args →
      keepsValue m callee.output (.call name args none)
  ternary : ∀ {m t c v w}, keepsFormula m c → keepsValue m t v → keepsValue m t w →
    keepsValue m t (.ternary c v w)
  update : ∀ {e m σ shape x i o t u b w}, hasValue e t (.place (.elem shape x i o) none) →
    e.scope.vars.get? x = some u → σ.Carries (keepsValue m) e (· ∈ i.freeVars.members) →
    keepsValue m u b → keepsValue m t w → keepsValue m u (.update shape b (i.substNonempty σ) w)
  toExpr : ∀ {m v}, keepsValue m .i32 v → keepsExpr m v.toExpr
  next : ∀ {m a}, keepsExpr m a → keepsValue m .i32 (Expr.toValue (.op .add a (.num 1)))
  num : ∀ {m} (n : Int32), keepsExpr m (.num n)
  lit : ∀ {m} (b : Bool), keepsFormula m (.lit b)
  compare : ∀ {m a b} (c : Comparison), keepsExpr m a → keepsExpr m b → keepsFormula m (.compare c a b)
  negate : ∀ {m f}, keepsFormula m f → keepsFormula m f.negate
  -- The same for values that no command can read.
  growEntry : ∀ {m m' v}, m.Under m' → keepsEntry m v → keepsEntry m' v := by intros; trivial
  entry : ∀ {m t v}, keepsValue m t v → keepsEntry m v := by intros; trivial
  missing : ∀ {m}, keepsEntry m .missing := by intros; trivial
  numberEntry : ∀ {m v} (n : ℕ), keepsEntry m v → keepsEntry m (v.number.run n).1 := by intros; trivial
  ternaryEntry : ∀ {m c v w}, keepsFormula m c → keepsEntry m v → keepsEntry m w →
    keepsEntry m (.ternary c v w) := by intros; trivial
  nextEntry : ∀ {m v}, keepsEntry m v →
    keepsEntry m (Expr.toValue (.op .add v.toExpr (.num 1))) := by intros; trivial

namespace Discipline

variable {functions : List Function} (D : Discipline functions)

/-! ### Programs that obey a discipline -/

/-- Whether the elements of symbolic tuples of a type may be bound to as many declared variables. -/
def Destructures (t : Ty) (ds : List Declaration) : Prop :=
  ∀ (m : NameMap Ty) (v : Value) (u : Ty) (us : List Ty), D.keepsValue m t v →
    v.typeOf ⟨m, functions⟩ = .ok u → u.underlying = .tuple us → us.length = ds.length →
      ∀ (i : ℕ) (d : Declaration), ds[i]? = some d → d.name ≠ "_" →
        D.keepsValue m d.type (.element .tuple v (.int (Int32.ofNat i)))

/-- Whether values of a type may be assigned to a place. -/
def Takes (e : Env) (t : Ty) : Place → Prop
  | .wildcard _ => True
  | .name x _ => e.scope.vars.get? x = some t
  | .elem shape x i o => (∃ u, e.scope.vars.get? x = some u) ∧
    D.asksValue e t (.place (.elem shape x i o) none)

/-- Whether a value may be assigned to the place that it is assigned to. -/
def Assigns (e : Env) (a : Assignment) : Prop :=
  ∃ t, D.asksValue e t a.value ∧ D.Takes e t a.target

end Discipline

section Obeys

variable {functions : List Function} (D : Discipline functions)

mutual

/-- Whether the nodes of a command obey a discipline. -/
def Command.Obeys (e : Env) : Command → Prop
  | .declare _ | .noop _ => True
  | .bind d v => D.asksValue e d.type v
  | .bindTuple ds v _ => ∃ t, D.asksValue e t v ∧ D.Destructures t ds
  | .assign a => D.Assigns e a
  | .assignAll as _ => ∀ a ∈ as, D.Assigns e a
  | .assert f _ | .assume f _ | .invariant f _ => D.asksFormula e f
  | .cond bs _ => bs.Obeys e
  | .forRange i lo hi inv body _ =>
    D.asksValue e .i32 lo ∧ D.asksValue e .i32 hi ∧
      D.asksFormula (Scoping.declare e i .i32 false) inv ∧
      Command.AllObey (Scoping.declare e i .i32 false) body
  | .whileLoop c inv variant body _ =>
    D.asksFormula e c ∧ D.asksFormula e inv ∧ (∀ a ∈ variant, D.asksValue e .i32 a.toValue) ∧
      Command.AllObey e body

def Branches.Obeys (e : Env) : Branches → Prop
  | .otherwise b => Command.AllObey e b
  | .branch c b rest => D.asksFormula e c ∧ Command.AllObey e b ∧ rest.Obeys e

def Command.AllObey (e : Env) : List Command → Prop
  | [] => True
  | c :: cs => c.Obeys e ∧ Command.AllObey (Scoping.command e c).1 cs

end

/-- Whether a function obeys the scoping rules, and its contract is such as can be used by its callers. -/
structure Function.Promises (f : Function) : Prop where
  rules : Scoping.function functions f = []
  precondition : D.hasFormula (f.inputEnv functions) f.precondition
  postcondition : D.hasFormula (f.postEnv functions) f.postcondition

/-- Whether the nodes of a function obey a discipline. -/
structure Function.Obeys (f : Function) : Prop where
  written : D.written → f.Written
  precondition : D.asksFormula (f.inputEnv functions) f.precondition
  body : Command.AllObey D (f.entryEnv functions) f.body
  result : D.asksValue (f.exitEnv functions) f.output f.result
  postcondition : D.asksFormula (f.postEnv functions) f.postcondition

end Obeys

namespace Discipline

/-! ### Steps that are safe -/

section Safe

variable {functions : List Function} (D : Discipline functions)

/-- Whether a discipline has been kept for all obligations. Constants are named by variables, which have
no quote in their names, or by primed names. -/
structure Kept (g : Generator) : Prop where
  names : ∀ x t, g.symbols.get? x = some t → '\'' ∉ x.toList ∨ ∃ y i, x = primed y i
  obligations : ∀ o ∈ g.obligations, D.keepsFormula g.symbols o.goal ∧
    ∀ f ∈ o.assumptions, D.keepsFormula g.symbols f

/-- Whether a step of generation keeps a discipline and makes no constants, where those before have some
types. If it gives a result, then that has a property. -/
def Safe {α : Type} (m : GenM α) (types : NameMap Ty) (Q : α → Prop) : Prop :=
  ∀ g, D.Kept g → g.symbols = types → match m.run g with
    | .ok (a, g') => D.Kept g' ∧ g'.symbols = types ∧ Q a
    | .error (.error _) => True
    | .error (.outOfScope _) => ¬ D.written

variable {D} {α β : Type} {m : GenM α} {types : NameMap Ty} {P Q : α → Prop}

theorem Kept.grow {g g' : Generator} (h : D.Kept g) (hsymbols : g.symbols.Under g'.symbols)
    (hnames : ∀ x t, g'.symbols.get? x = some t → '\'' ∉ x.toList ∨ ∃ y i, x = primed y i)
    (hobligations : g'.obligations = g.obligations) : D.Kept g' := by
  refine ⟨hnames, fun o ho => ?_⟩
  obtain ⟨hgoal, hfacts⟩ := h.obligations o (hobligations ▸ ho)
  exact ⟨D.growFormula hsymbols hgoal, fun f hf => D.growFormula hsymbols (hfacts f hf)⟩

theorem safe_pure {a : α} (h : Q a) : D.Safe (pure a) types Q := fun _ hg hsymbols => ⟨hg, hsymbols, h⟩

theorem safe_error {e : GenerationError} : D.Safe (throw (.error e) : GenM α) types Q :=
  fun _ _ _ => trivial

theorem safe_get : D.Safe (get : GenM Generator) types fun g => g.symbols = types :=
  fun _ hg hsymbols => ⟨hg, hsymbols, hsymbols⟩

theorem Safe.bind {f : α → GenM β} {Q : β → Prop} (h : D.Safe m types P)
    (hf : ∀ a, P a → D.Safe (f a) types Q) : D.Safe (m >>= f) types Q := by
  intro g hg hsymbols
  have hm := h g hg hsymbols
  rw [StateT.run_bind]
  cases hrun : m.run g with
  | error e =>
    rw [hrun] at hm
    cases e with
    | error e => trivial
    | outOfScope e => exact hm
  | ok r =>
    rw [hrun] at hm
    exact hf r.1 hm.2.2 r.2 hm.1 hm.2.1

theorem Safe.mono (h : D.Safe m types P) (hPQ : ∀ a, P a → Q a) : D.Safe m types Q := by
  have hbind := h.bind fun a ha => safe_pure (hPQ a ha)
  rwa [bind_pure] at hbind

/-- A step that keeps constants and obligations is safe. -/
theorem safe_of_run (h : ∀ g, ∃ a g', m.run g = .ok (a, g') ∧ g'.symbols = g.symbols ∧
    g'.obligations = g.obligations ∧ Q a) : D.Safe m types Q := by
  intro g hg hsymbols
  obtain ⟨a, g', hrun, hsymbols', hobligations, ha⟩ := h g
  rw [hrun]
  exact ⟨hg.grow (hsymbols' ▸ .refl _) (hsymbols' ▸ hg.names) hobligations, hsymbols'.trans hsymbols, ha⟩

theorem safe_ofFault {r : Except Fault α} (h : ∀ a, r = .ok a → Q a) :
    D.Safe (Generation.ofFault r) types Q := by
  cases r with
  | ok a => exact safe_pure (h a rfl)
  | error e => exact safe_error

theorem safe_inScope {r : Except Fault Frame} {Q : Frame → Prop}
    (hok : D.written → ∃ f, r = .ok f) (h : ∀ f, r = .ok f → Q f) :
    D.Safe (Generation.inScope r) types Q := by
  cases r with
  | ok f => exact safe_pure (h f rfl)
  | error e =>
    intro _ _ _ hw
    obtain ⟨f, hf⟩ := hok hw
    cases hf

end Safe

/-! ### States -/

section States

variable {functions : List Function} (D : Discipline functions)

/-- Whether all variables of an environment have values in a state, and all its values and facts are
kept. -/
structure Binds (e : Env) (types : NameMap Ty) (s : SymState) : Prop where
  values : s.values.Carries (D.keepsValue types) e fun _ => True
  entries : ∀ x v, s.values.get? x = some v → D.keepsEntry types v
  facts : ∀ f ∈ s.facts, D.keepsFormula types f

/-- What evaluation does with a state: it may learn facts. -/
structure Learns (types : NameMap Ty) (s s' : SymState) : Prop where
  frame : s'.frame = s.frame
  values : s'.values = s.values
  facts : ∀ f ∈ s'.facts, D.keepsFormula types f

/-- What a change does with a state: it stays in its frame, and its variables have values. -/
structure Continues (s : SymState) (e : Env) (types : NameMap Ty) (s' : SymState) : Prop where
  frame : s'.frame = s.frame
  binds : D.Binds e types s'

variable {D} {e e' : Env} {types types' : NameMap Ty} {s s' s'' : SymState}

theorem Binds.grow (h : D.Binds e types s) (htypes : types.Under types') : D.Binds e types' s := by
  refine ⟨fun x hx t ht => ?_, fun x v hv => D.growEntry htypes (h.entries x v hv),
    fun f hf => D.growFormula htypes (h.facts f hf)⟩
  obtain ⟨v, hv, hkeeps⟩ := h.values x hx t ht
  exact ⟨v, hv, D.growValue htypes hkeeps⟩

theorem Binds.before (h : D.Binds e' types s)
    (he : ∀ x t, e.scope.vars.get? x = some t → e'.scope.vars.get? x = some t) : D.Binds e types s :=
  ⟨fun x hx t ht => h.values x hx t (he x t ht), h.entries, h.facts⟩

/-- The frame of a state plays no role. -/
theorem Binds.withFrame (h : D.Binds e types s) (frame : Frame) : D.Binds e types { s with frame } :=
  ⟨h.values, h.entries, h.facts⟩

theorem Binds.assume (h : D.Binds e types s) {f : Formula} (hf : D.keepsFormula types f) :
    D.Binds e types (s.assume f) :=
  ⟨by simpa using h.values, by simpa using h.entries, SymState.forall_facts_assume h.facts hf⟩

variable {v : Value} {x : String} {t : Ty}

theorem Binds.entries_set (h : D.Binds e types s) (x : String) (hv : D.keepsEntry types v) (y : String)
    (w : Value) (hw : (s.set x v).values.get? y = some w) : D.keepsEntry types w := by
  simp only [SymState.set, NameMap.get?_insert] at hw
  split_ifs at hw
  · obtain rfl := Option.some.inj hw
    exact hv
  · exact h.entries y w hw

/-- A variable may be given a value that is kept at its type. -/
theorem Binds.set (h : D.Binds e types s) (hentry : D.keepsEntry types v)
    (hv : ∀ t, e.scope.vars.get? x = some t → D.keepsValue types t v) : D.Binds e types (s.set x v) := by
  refine ⟨fun y _ t ht => ?_, h.entries_set x hentry, h.facts⟩
  simp only [SymState.set, NameMap.get?_insert]
  split_ifs with hxy
  · subst hxy
    exact ⟨v, rfl, hv t ht⟩
  · exact h.values y trivial t ht

theorem Binds.add (h : D.Binds e types s) (x : String) (hv : D.keepsValue types t v) (m : Bool) :
    D.Binds (e.add x t m) types (s.set x v) := by
  refine ⟨fun y _ u hu => ?_, h.entries_set x (D.entry hv), h.facts⟩
  rw [Scoping.Env.type?_scope, Scoping.Env.get?_add] at hu
  simp only [SymState.set, NameMap.get?_insert]
  split_ifs at hu ⊢ with hxy
  · obtain rfl : t = u := by simpa using hu
    exact ⟨v, rfl, hv⟩
  · exact h.values y trivial u ((Scoping.Env.type?_scope e y).trans hu)

theorem Binds.declare (h : D.Binds e types s) (hwild : e.vars.get? "_" = none) (x : String)
    (hv : D.keepsValue types t v) (m : Bool) : D.Binds (Scoping.declare e x t m) types (s.set x v) := by
  unfold Scoping.declare
  split_ifs with hx
  · subst hx
    refine h.set (D.entry hv) fun u hu => ?_
    rw [Scoping.Env.type?_scope, hwild] at hu
    cases hu
  · exact h.add x hv m

/-- A variable that the environment does not know can be forgotten. -/
theorem Binds.forget (h : D.Binds e types s) (hx : e.scope.vars.get? x = none) :
    D.Binds e types (s.forget x) := by
  refine ⟨fun y _ t ht => ?_, fun y v hv => ?_, h.facts⟩
  · obtain ⟨v, hv, hkeeps⟩ := h.values y trivial t ht
    refine ⟨v, ?_, hkeeps⟩
    simp only [SymState.forget, NameMap.get?_erase]
    rw [if_neg, hv]
    rintro rfl
    rw [hx] at ht
    cases ht
  · simp only [SymState.forget, NameMap.get?_erase] at hv
    split_ifs at hv
    exact h.entries y v hv

theorem Binds.valueOf (h : D.Binds e types s) (hx : e.scope.vars.get? x = some t) :
    D.keepsValue types t (s.valueOf x) := by
  obtain ⟨v, hv, hkeeps⟩ := h.values x trivial t hx
  rwa [SymState.valueOf, hv]

theorem Binds.entryOf (h : D.Binds e types s) (x : String) : D.keepsEntry types (s.valueOf x) := by
  unfold SymState.valueOf
  cases hx : s.values.get? x with
  | none => exact D.missing
  | some v => exact h.entries x v hx

theorem Binds.carries (h : D.Binds e types s) (K : String → Prop) :
    s.values.Carries (D.keepsValue types) e K := fun x _ => h.values x trivial

theorem Binds.learns (h : D.Binds e types s) : D.Learns types s s := ⟨rfl, rfl, h.facts⟩

theorem Learns.binds (h : D.Learns types s s') (hs : D.Binds e types s) : D.Binds e types s' :=
  ⟨h.values ▸ hs.values, h.values ▸ hs.entries, h.facts⟩

theorem Learns.trans (h : D.Learns types s s') (h' : D.Learns types s' s'') : D.Learns types s s'' :=
  ⟨h'.frame.trans h.frame, h'.values.trans h.values, h'.facts⟩

theorem Continues.after (h : D.Continues s' e types s'') (hframe : s'.frame = s.frame) :
    D.Continues s e types s'' := ⟨h.frame.trans hframe, h.binds⟩

end States

end Discipline

namespace Generation

open Scoping
open Discipline (Safe safe_pure safe_error safe_get safe_of_run safe_ofFault safe_inScope)

variable {ctx : GenContext} {D : Discipline ctx.functions} {types : NameMap Ty} {e : Env} {s : SymState}
  {subject : Subject}
  {kind : ObligationKind}

/-- Whether values of an environment are typed in a frame as the rules say. -/
structure Faces (ctx : GenContext) (frame : Frame) (e : Env) : Prop where
  within : e.Within (frame.scopeOver ctx.ghosts)
  functions : e.functions = ctx.functions

theorem faces_of_serves {frame : Frame} (h : frame.Serves ctx.functions e) : Faces ctx frame e :=
  ⟨⟨fun x t hx => h.scopeOver ctx.ghosts (h.types x t hx), h.functions.trans h.env.symm⟩, h.env⟩

/-- The frame after a block is one for the environment before it. -/
theorem faces_of_extends {e' : Env} {frame : Frame} (h : frame.Serves ctx.functions e')
    (hextends : e.Extends e') (henv : e.functions = ctx.functions) : Faces ctx frame e :=
  ⟨⟨fun x t hx => (faces_of_serves h).within.types x t (hextends.type? hx),
    h.functions.trans henv.symm⟩, henv⟩

/-! ### Notes and values -/

theorem safe_require {need : Unit → Option Need} : D.Safe (require need) types fun _ => True := by
  refine safe_get.bind fun g _ => ?_
  split_ifs
  · split
    · exact safe_pure trivial
    · exact safe_error
  · exact safe_pure trivial

theorem safe_noteLoss {b : Bool} : D.Safe (noteLoss b) types fun _ => True :=
  safe_of_run fun _ => ⟨(), _, rfl, rfl, rfl, trivial⟩

theorem safe_noteAlikes {alikes : NameMap Ty → List Alike} :
    D.Safe (noteAlikes alikes) types fun _ => True :=
  safe_of_run fun _ => ⟨(), _, rfl, rfl, rfl, trivial⟩

theorem safe_keep (v : Value) : D.Safe (keep v) types fun w =>
    (∀ t, D.keepsValue types t v → D.keepsValue types t w) ∧
      (D.keepsEntry types v → D.keepsEntry types w) := by
  refine safe_of_run fun g => ?_
  have hrun : (keep v).run g = .ok (if !g.lossy || v.isWhole then (v, g)
      else ((v.number.run g.made).1, { g with made := (v.number.run g.made).2 })) := rfl
  split_ifs at hrun
  · exact ⟨v, g, hrun, rfl, rfl, fun _ => id, id⟩
  · exact ⟨_, _, hrun, rfl, rfl, fun _ => D.number g.made, D.numberEntry g.made⟩

variable {m : Substitution} {t : Ty} {keeps : Ty → Value → Prop} {f : Function} {functions : List Function}

theorem safe_substValue {v : Value} (hv : D.hasValue e t v)
    (hm : m.Carries (D.keepsValue types) e (· ∈ v.freeVars.members)) :
    D.Safe (substValue m v) types (D.keepsValue types t) := by
  refine safe_require.bind fun _ _ => safe_noteAlikes.bind fun _ _ => ?_
  exact (safe_keep _).mono fun w hw => hw.1 t (D.substValue hv hm)

theorem safe_substitute {f : Formula} (h : D.keepsFormula types (f.subst m)) :
    D.Safe (substFormula m f) types (D.keepsFormula types) := by
  exact safe_require.bind fun _ _ => safe_noteAlikes.bind fun _ _ => safe_pure h

theorem safe_substExpr {a : Expr} (ha : D.hasValue e .i32 a.toValue)
    (hm : m.Carries (D.keepsValue types) e (· ∈ a.freeVars.members)) :
    D.Safe (substExpr m a) types (D.keepsExpr types) := by
  exact safe_require.bind fun _ _ => safe_noteAlikes.bind fun _ _ => safe_pure (D.substExpr ha hm)

/-! ### Obligations -/

theorem safe_emit {goal : Formula} (hs : D.Binds e types s) (hgoal : D.keepsFormula types goal) :
    D.Safe (emit ctx s kind subject goal) types fun _ => True := by
  unfold emit
  split_ifs
  · exact safe_pure trivial
  · rintro g hg rfl
    refine ⟨⟨hg.names, fun o ho => ?_⟩, rfl, trivial⟩
    rcases List.mem_append.mp ho with ho | ho
    · exact hg.obligations o ho
    · obtain rfl := List.mem_singleton.mp ho
      exact ⟨hgoal, hs.facts⟩

theorem safe_emitChecks {cs : List Check} (hs : D.Binds e types s)
    (hcs : ∀ c ∈ cs, D.keepsFormula types (c.cond.subst s.values)) :
    D.Safe (emitChecks ctx s subject cs) types fun _ => True := by
  induction cs with
  | nil => exact safe_pure trivial
  | cons c cs ih =>
    refine (safe_substitute (hcs c List.mem_cons_self)).bind fun goal hgoal => ?_
    exact (safe_emit hs hgoal).bind fun _ _ => ih fun c' hc' => hcs c' (List.mem_cons_of_mem c hc')

/-! ### Calls -/

/-- Arguments replace inputs and their values on entry, and nothing else. -/
theorem foldl_arguments (ds : List Declaration) (args : List Value)
    (hm : ∀ x, (m.get? x = none ∧ types.get? x = none) ∨
      ∃ v t, m.get? x = some v ∧ types.get? x = some t ∧ keeps t v)
    (hargs : List.Forall₂ keeps (ds.map Declaration.type) args) (x : String) :
    let m' := (ds.zip args).foldl (fun m (d, v) => (m.insert d.name v).insert (oldName d.name) v) m
    let types' := ds.foldl
      (fun m d => (m.insert d.name d.type).insert (oldName d.name) d.type) types
    (m'.get? x = none ∧ types'.get? x = none) ∨
      ∃ v t, m'.get? x = some v ∧ types'.get? x = some t ∧ keeps t v := by
  induction ds generalizing m types args with
  | nil => exact hm x
  | cons d ds ih =>
    obtain _ | ⟨hkeeps, hrest⟩ := hargs
    next a as =>
    refine ih as (fun y => ?_) hrest
    simp only [NameMap.get?_insert]
    split_ifs
    · exact .inr ⟨a, d.type, rfl, rfl, hkeeps⟩
    · exact .inr ⟨a, d.type, rfl, rfl, hkeeps⟩
    · exact hm y

theorem argumentMap_cases {args : List Value}
    (hargs : List.Forall₂ keeps (f.inputs.map Declaration.type) args) (x : String) :
    ((argumentMap f.inputs args).get? x = none ∧ f.entryVars.get? x = none) ∨
      ∃ v t, (argumentMap f.inputs args).get? x = some v ∧ f.entryVars.get? x = some t ∧ keeps t v :=
  foldl_arguments f.inputs args (fun _ => .inl ⟨rfl, rfl⟩) hargs x

theorem entryVars_of_entryEnv {x : String} (hd : Declares ⟨.empty, functions⟩ f.inputs)
    (hx : (f.entryEnv functions).scope.vars.get? x = some t) : f.entryVars.get? x = some t := by
  rw [← Function.get?_entryEnv hd, hx]
  rintro rfl
  rw [Env.type?_scope, wildcard_entryEnv] at hx
  cases hx

/-- Inputs and values on entry keep their types in the body. -/
theorem type_of_exitEnv {x : String} {u : Ty} (hrules : Scoping.function functions f = [])
    (ht : (f.exitEnv functions).scope.vars.get? x = some t) (hu : f.entryVars.get? x = some u) : t = u := by
  obtain ⟨hd, -, hbody⟩ := of_function hrules
  have hwild : x ≠ "_" := by
    rintro rfl
    rw [Env.type?_scope, Function.exitEnv, wildcard_block (wildcard_entryEnv functions f)] at ht
    cases ht
  have hexit := (block_extends hbody).type? ((Function.get?_entryEnv hd hwild).trans hu)
  exact Option.mem_unique ht hexit

theorem safe_substValues {vs : List Value} {ts : List Ty} (hs : D.Binds e types s)
    (hvs : List.Forall₂ (D.hasValue e) ts vs) :
    D.Safe (substValues s.values vs) types (List.Forall₂ (D.keepsValue types) ts) := by
  induction hvs with
  | nil => exact safe_pure .nil
  | cons hv hvs ih =>
    refine (safe_substValue hv (hs.carries _)).bind fun w hw => ?_
    exact ih.bind fun ws hws => safe_pure (.cons hw hws)

/-- A known postcondition holds of arguments and result as symbolic values. -/
theorem carries_postcondition {callee : Function} {args : List Value} {r : Value}
    (hrules : Scoping.function functions callee = [])
    (hargs : List.Forall₂ keeps (callee.inputs.map Declaration.type) args) (hr : keeps callee.output r)
    (hknown : ∀ x ∈ callee.postcondition.freeVars.members,
      (∃ v, (argumentMap callee.inputs args).get? x = some v) ∨ x = resultName) :
    Substitution.Carries keeps (callee.postEnv functions)
      ((argumentMap callee.inputs args).insert resultName r)
      (· ∈ callee.postcondition.freeVars.members) := by
  intro x hx t ht
  rw [NameMap.get?_insert]
  rw [Function.postEnv, Env.type?_scope, Env.get?_add] at ht
  split_ifs at ht ⊢ with hresult
  · obtain rfl : callee.output = t := by simpa using ht
    exact ⟨r, rfl, hr⟩
  · obtain ⟨v, hv⟩ := (hknown x hx).resolve_right (Ne.symm hresult)
    rcases argumentMap_cases hargs x with ⟨hnone, -⟩ | ⟨w, u, hw, hu, hkeeps⟩
    · rw [hnone] at hv
      cases hv
    · obtain rfl := type_of_exitEnv hrules ((Env.type?_scope _ x).trans ht) hu
      exact ⟨w, hw, hkeeps⟩

/-! ### Writes -/

variable {v : Value} {ds : List Declaration}

/-- Whether kept values of a type may be written to an evaluated place. -/
def Writable (D : Discipline ctx.functions) (e : Env) (types : NameMap Ty) (t : Ty) : Place → Prop
  | .wildcard _ => True
  | .name x _ => e.scope.vars.get? x = some t
  | .elem shape x i _ => ∃ u, e.scope.vars.get? x = some u ∧ ∀ b v, D.keepsValue types u b →
    D.keepsValue types t v → D.keepsValue types u (.update shape b i v)

theorem safe_write {p : Place} (hs : D.Binds e types s) (hp : Writable D e types t p)
    (hv : D.keepsValue types t v) : D.Safe (write s p v) types (D.Continues s e types) := by
  have hvariable : ∀ x u, e.scope.vars.get? x = some u → s.isVariable x = true := fun x u hx =>
    (NameMap.contains_iff _ _).mpr ((hs.values x trivial u hx).imp fun _ h => h.1)
  cases p with
  | wildcard o => exact safe_pure ⟨rfl, hs⟩
  | name x o =>
    simp only [write, Place.base, hvariable x t hp, Bool.not_true, Bool.false_eq_true, if_false]
    refine safe_pure ⟨rfl, hs.set (D.entry hv) fun u hu => ?_⟩
    obtain rfl : t = u := Option.mem_unique hp hu
    exact hv
  | elem shape x i o =>
    obtain ⟨u, hx, hupdate⟩ := hp
    simp only [write, Place.base, hvariable x u hx, Bool.not_true, Bool.false_eq_true, if_false]
    refine (safe_keep _).bind fun w hw => ?_
    have hkept := hw.1 u (hupdate _ v (hs.valueOf hx) hv)
    refine safe_pure ⟨rfl, hs.set (D.entry hkept) fun u' hu' => ?_⟩
    obtain rfl : u = u' := Option.mem_unique hx hu'
    exact hkept

theorem safe_writeAll {ws : List (Place × Value)} (hs : D.Binds e types s)
    (hws : ∀ q ∈ ws, ∃ t, Writable D e types t q.1 ∧ D.keepsValue types t q.2) :
    D.Safe (writeAll s ws) types (D.Continues s e types) := by
  induction ws generalizing s with
  | nil => exact safe_pure ⟨rfl, hs⟩
  | cons w ws ih =>
    obtain ⟨t, hp, hv⟩ := hws w List.mem_cons_self
    refine (safe_write hs hp hv).bind fun s₁ hs₁ => ?_
    exact (ih hs₁.binds fun q hq => hws q (List.mem_cons_of_mem w hq)).mono
      fun s₂ hs₂ => hs₂.after hs₁.frame

/-- The rest of a tuple's elements, from position `i` on. -/
theorem safe_bindElements {i : ℕ} (o : Origin) (hs : D.Binds e types s)
    (hwild : e.vars.get? "_" = none)
    (hds : ∀ (j : ℕ) (d : Declaration), ds[j]? = some d → d.name ≠ "_" →
      D.keepsValue types d.type (.element .tuple v (.int (Int32.ofNat (i + j))))) :
    D.Safe (bindElements s v i ds) types (D.Continues s (Scoping.declareAll o e ds).1 types) := by
  induction ds generalizing s e i with
  | nil => exact safe_pure ⟨rfl, hs⟩
  | cons d ds ih =>
    have hrest : ∀ (j : ℕ) (d' : Declaration), ds[j]? = some d' → d'.name ≠ "_" →
        D.keepsValue types d'.type (.element .tuple v (.int (Int32.ofNat (i + 1 + j)))) := by
      intro j d' hj
      have hnext := hds (j + 1) d' (by simpa using hj)
      rwa [Nat.add_comm j 1, ← Nat.add_assoc] at hnext
    have hwild' := wildcard_declare hwild d.name d.type d.mutable
    unfold bindElements
    split_ifs with hd
    · have henv : Scoping.declare e d.name d.type d.mutable = e := if_pos hd
      exact ih (by rwa [henv]) hwild' hrest
    · refine safe_require.bind fun _ _ => safe_noteAlikes.bind fun _ _ => ?_
      refine (safe_keep _).bind fun w hw => ?_
      have helement := hw.1 d.type (hds 0 d rfl hd)
      exact (ih (hs.declare hwild d.name helement d.mutable) hwild' hrest).mono
        fun s₁ hs₁ => hs₁.after rfl

section

variable (hfs : ∀ f ∈ ctx.functions, f.Promises D) {as : List Assignment}
include hfs

/-! ### Contracts -/

theorem safe_contract {c : Call} (hs : D.Binds e types s) (henv : e.functions = ctx.functions)
    (hcalls : ∀ callee, (ctx.functions.find? fun f => f.name == c.function) = some callee →
      D.hasValue e callee.output (.call c.function c.args c.origin)) :
    D.Safe (contract ctx s subject c) types (D.Learns types s) := by
  unfold contract
  split
  · exact safe_error
  · next callee hcallee =>
    split_ifs with hlen
    · exact safe_error
    obtain ⟨hrules, hpre, hpost⟩ := hfs callee (List.mem_of_find?_eq_some hcallee)
    have hcall := hcalls callee hcallee
    refine (safe_substValues hs (D.arguments hcall henv hcallee)).bind fun args hkept => ?_
    have hinputs : Substitution.Carries (D.keepsValue types) (callee.inputEnv ctx.functions)
        (argumentMap callee.inputs args) (· ∈ callee.precondition.freeVars.members) := by
      intro x _ t ht
      have hd := (of_function hrules).1
      have hentry := entryVars_of_entryEnv hd (Function.get?_entryEnv_of_inputEnv hd ht)
      rcases argumentMap_cases hkept x with ⟨-, hnone⟩ | ⟨v, u, hv, hu, hkeeps⟩
      · rw [hnone] at hentry
        cases hentry
      · obtain rfl : u = t := Option.mem_unique hu hentry
        exact ⟨v, hv, hkeeps⟩
    refine (safe_substitute (D.substFormula hpre hinputs)).bind fun goal hgoal => ?_
    refine (safe_emit hs hgoal).bind fun _ _ => ?_
    dsimp only
    split_ifs with hknown
    · refine (safe_keep _).bind fun r hr => ?_
      have hresult := hr.1 callee.output (D.call hcall hcallee hkept)
      have hpost := D.substFormula hpost
        (carries_postcondition hrules hkept hresult fun x hx => by
          simpa [NameMap.contains_iff] using List.all_eq_true.mp hknown x hx)
      refine (safe_substitute hpost).bind fun fact hfact => safe_pure ?_
      exact ⟨SymState.assume_frame s fact, SymState.assume_values s fact, (hs.assume hfact).facts⟩
    · exact safe_pure hs.learns

theorem safe_contracts {cs : List Call} (hs : D.Binds e types s) (henv : e.functions = ctx.functions)
    (hcalls : CallsHave ctx.functions (D.hasValue e) cs) :
    D.Safe (contracts ctx subject s cs) types (D.Learns types s) := by
  induction cs generalizing s with
  | nil => exact safe_pure hs.learns
  | cons c cs ih =>
    refine (safe_contract hfs hs henv (hcalls c List.mem_cons_self)).bind fun s₁ hs₁ => ?_
    exact (ih (hs₁.binds hs) fun c' hc' => hcalls c' (List.mem_cons_of_mem c hc')).mono
      fun s₂ hs₂ => hs₁.trans hs₂

omit hfs in
theorem safe_aside {α : Type} {m : GenM α} {Q : α → Prop} (h : D.Safe m types Q) :
    D.Safe (aside m) types Q := by
  refine safe_get.bind fun g _ => h.bind fun a ha => ?_
  have hmade : D.Safe (modify fun g' : Generator => { g' with made := g.made } : GenM Unit) types
      fun _ => True := safe_of_run fun _ => ⟨(), _, rfl, rfl, rfl, trivial⟩
  exact hmade.bind fun _ _ => safe_pure ha

theorem safe_calls {ns : List Node} (hs : D.Binds e types s) (henv : e.functions = ctx.functions)
    (hcalls : CallsHave ctx.functions (D.hasValue e) (ns.filterMap call?)) :
    D.Safe (calls ctx s subject ns) types (D.Learns types s) := by
  unfold calls
  split
  · exact safe_pure hs.learns
  · exact safe_aside (safe_contracts hfs hs henv fun c hc => hcalls c (List.mem_reverse.mp hc))

/-! ### Evaluation -/

omit hfs in
theorem safe_encoded {α : Type} {m : Encoding.EncodeM α} :
    D.Safe (encoded m) types fun a => (m.run.run default).1 = .ok a :=
  safe_ofFault fun _ ha => ha

section

variable (hs : D.Binds e types s) (he : Faces ctx s.frame e)
include hs he

theorem safe_conditionsOfValue (hv : D.asksValue e t v) :
    D.Safe (conditionsOfValue ctx s subject v) types fun s' =>
      D.hasValue e t v ∧ D.Learns types s s' := by
  refine safe_encoded.bind fun cs hcs => ?_
  have hpassed := D.passValue hv he.within hcs
  have hchecks := D.valueChecks hpassed he.within hcs (hs.carries _)
  refine (safe_emitChecks hs hchecks).bind fun _ _ => ?_
  exact (safe_calls hfs hs he.functions (D.valueCalls hpassed he.functions)).mono
    fun _ hs' => ⟨hpassed, hs'⟩

theorem safe_conditionsOfFormula {f : Formula} (hf : D.asksFormula e f) :
    D.Safe (conditionsOfFormula ctx s subject f) types fun s' => D.hasFormula e f ∧ D.Learns types s s' := by
  refine safe_encoded.bind fun r hr => ?_
  have hpassed := D.passFormula hf he.within hr
  have hchecks := D.formulaChecks hpassed he.within hr (hs.carries _)
  refine (safe_emitChecks hs hchecks).bind fun _ _ => ?_
  exact (safe_calls hfs hs he.functions (D.formulaCalls hpassed he.functions)).mono
    fun _ hs' => ⟨hpassed, hs'⟩

theorem safe_value (hv : D.asksValue e t v) :
    D.Safe (value ctx s subject v) types fun r => D.keepsValue types t r.1 ∧ D.Learns types s r.2 := by
  refine (safe_conditionsOfValue hfs hs he hv).bind fun s₁ hs₁ => ?_
  exact (safe_substValue hs₁.1 ((hs₁.2.binds hs).carries _)).bind fun w hw => safe_pure ⟨hw, hs₁.2⟩

theorem safe_formula {f : Formula} (hf : D.asksFormula e f) :
    D.Safe (formula ctx s subject f) types fun r => D.keepsFormula types r.1 ∧ D.Learns types s r.2 := by
  refine (safe_conditionsOfFormula hfs hs he hf).bind fun s₁ hs₁ => ?_
  exact (safe_substitute (D.substFormula hs₁.1 ((hs₁.2.binds hs).carries _))).bind
    fun f' hf' => safe_pure ⟨hf', hs₁.2⟩

theorem safe_expr {a : Expr} (ha : D.asksValue e .i32 a.toValue) :
    D.Safe (expr ctx s subject a) types fun r => D.keepsExpr types r.1 ∧ D.Learns types s r.2 := by
  refine (safe_conditionsOfValue hfs hs he ha).bind fun s₁ hs₁ => ?_
  exact (safe_substExpr hs₁.1 ((hs₁.2.binds hs).carries _)).bind fun a' ha' => safe_pure ⟨ha', hs₁.2⟩

theorem safe_check {f : Formula} (hf : D.asksFormula e f) :
    D.Safe (check ctx s kind subject f) types (D.Learns types s) := by
  refine (safe_formula hfs hs he hf).bind fun r hr => ?_
  exact (safe_emit (hr.2.binds hs) hr.1).bind fun _ _ => safe_pure hr.2

/-! ### Assignments -/

theorem safe_location {p : Place} (hp : D.Takes e t p) :
    D.Safe (location ctx s subject p) types fun r =>
      Writable D e types t r.1 ∧ D.Learns types s r.2 := by
  cases p with
  | wildcard o => exact safe_pure ⟨trivial, hs.learns⟩
  | name x o => exact safe_pure ⟨hp, hs.learns⟩
  | elem shape x i o =>
    obtain ⟨⟨u, hx⟩, hplace⟩ := hp
    refine (safe_conditionsOfValue hfs hs he hplace).bind fun s₁ hs₁ => ?_
    refine safe_require.bind fun _ _ => safe_noteAlikes.bind fun _ _ => safe_pure ?_
    have hcarries := (hs₁.2.binds hs).carries (· ∈ i.freeVars.members)
    exact ⟨⟨u, hx, fun b v hb hv => D.update hs₁.1 hx hcarries hb hv⟩, hs₁.2⟩

theorem safe_targets (has : ∀ a ∈ as, D.Assigns e a) :
    D.Safe (targets ctx subject s as) types fun r =>
      (∀ q ∈ r.1, ∃ t, Writable D e types t q.1 ∧ D.keepsValue types t q.2) ∧
        D.Learns types s r.2 := by
  induction as generalizing s with
  | nil => exact safe_pure ⟨by simp, hs.learns⟩
  | cons a as ih =>
    obtain ⟨t, hvalue, htarget⟩ := has a List.mem_cons_self
    refine (safe_value hfs hs he hvalue).bind fun v hv => ?_
    have hs₁ := hv.2.binds hs
    refine (safe_location hfs hs₁ (hv.2.frame ▸ he) htarget).bind fun p hp => ?_
    have hlearns := hv.2.trans hp.2
    refine (ih (hp.2.binds hs₁) (hlearns.frame ▸ he)
      fun b hb => has b (List.mem_cons_of_mem a hb)).bind fun rest hrest => safe_pure ?_
    refine ⟨fun q hq => ?_, hlearns.trans hrest.2⟩
    rcases List.mem_cons.mp hq with rfl | hq
    · exact ⟨t, hp.1, hv.1⟩
    · exact hrest.1 q hq

theorem safe_assign (has : ∀ a ∈ as, D.Assigns e a) :
    D.Safe (assign ctx s subject as) types (D.Continues s e types) := by
  refine (safe_targets hfs hs he has).bind fun r hr => ?_
  exact (safe_writeAll (hr.2.binds hs) hr.1).mono fun s₁ hs₁ => hs₁.after hr.2.frame

theorem safe_destructure (o : Origin) (hwild : e.vars.get? "_" = none) (hv : D.asksValue e t v)
    (hds : D.Destructures t ds) :
    D.Safe (destructure ctx s subject ds v) types
      (D.Continues s (Scoping.declareAll o e ds).1 types) := by
  refine (safe_value hfs hs he hv).bind fun r hr => safe_get.bind fun g hg => ?_
  refine (safe_ofFault fun _ hu => hu).bind fun u hu => ?_
  rw [hg] at hu
  split
  · next us hus =>
    split_ifs with hlen
    · refine (safe_bindElements o (hr.2.binds hs) hwild fun j d hj hd => ?_).mono
        fun s₁ hs₁ => hs₁.after hr.2.frame
      rw [Nat.zero_add]
      exact hds _ _ u us hr.1 hu hus hlen j d hj hd
    · exact safe_error
  · exact safe_error

end

end

/-! ### Conditionals -/

theorem safe_mergeValues {cond : Formula} {t t' : SymState} {xs : List String} (hs : D.Binds e types s)
    (hcond : D.keepsFormula types cond) (ht : D.Binds e types t) (ht' : D.Binds e types t') :
    D.Safe (mergeValues cond t t' s xs) types (D.Continues s e types) := by
  induction xs generalizing s with
  | nil => exact safe_pure ⟨rfl, hs⟩
  | cons x xs ih =>
    unfold mergeValues mergeValue
    split_ifs
    · exact ih hs
    simp only [bind_assoc]
    refine safe_require.bind fun _ _ => safe_noteAlikes.bind fun _ _ => ?_
    refine (safe_keep _).bind fun v hv => ?_
    have hentry := hv.2 (D.ternaryEntry hcond (ht.entryOf x) (ht'.entryOf x))
    refine (ih (hs.set hentry fun u hu => ?_)).mono fun s₁ hs₁ => hs₁.after rfl
    exact hv.1 u (D.ternary hcond (ht.valueOf hu) (ht'.valueOf hu))

theorem safe_merge {cond : Formula} {t t' : SymState} (hs : D.Binds e types s)
    (hcond : D.keepsFormula types cond) (ht : D.Binds e types t) (ht' : D.Binds e types t') :
    D.Safe (merge cond t t' s) types (D.Continues s e types) := by
  exact safe_noteLoss.bind fun _ _ => safe_mergeValues hs hcond ht ht'

theorem binds_foldl_set {t : SymState} (xs : List String) (hs : D.Binds e types s)
    (ht : D.Binds e types t) :
    D.Continues s e types (xs.foldl (fun s x => s.set x (t.valueOf x)) s) := by
  induction xs generalizing s with
  | nil => exact ⟨rfl, hs⟩
  | cons x xs ih => exact (ih (hs.set (ht.entryOf x) fun u hu => ht.valueOf hu)).after rfl

theorem safe_copyValues {t : SymState} (hs : D.Binds e types s) (ht : D.Binds e types t) :
    D.Safe (copyValues t s) types (D.Continues s e types) := by
  exact safe_noteLoss.bind fun _ _ => safe_pure (binds_foldl_set _ hs ht)

end Generation

end Verdict
