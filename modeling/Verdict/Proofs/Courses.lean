import Verdict.Proofs.SimpleCommands

/-! # The course of commands with blocks

A conditional and a loop are run in several steps. For each there is a record of the states in between
and of what is known of each step: `BranchCourse`, `WhileCourse` and `ForCourse`. From them follows that
every block leaves a well-typed state. -/

namespace Verdict

namespace Generation

open GenM

/-- What every part of a body relies on. -/
structure Ready (ctx : GenContext) (R : Rules) (e : Scoping.Env) (s : SymState) (g : Generator) :
    Prop where
  suits : R.Suits ctx.functions
  covers : s.frame.Covers ctx.functions e
  typed : s.Typed R e.scope.vars g
  known : g.Known

variable {R : Rules} {ctx : GenContext} {vars vars' : NameMap Ty} {g g' : Generator} {s s' : SymState}
  {subject : Subject} {e : Scoping.Env}
  {ρ σ : Valuation}

theorem Ready.sees (h : Ready ctx R e s g) : Sees ctx R e.scope.vars s :=
  sees_of_covers h.covers h.suits h.covers.types

theorem Ready.evaluated (h : Ready ctx R e s g) (he : Evaluated R e.scope.vars s s' g g') :
    Ready ctx R e s' g' :=
  ⟨h.suits, he.frame ▸ h.covers, he.typed, (he.reaches h.known).known⟩

theorem Ready.assume {f : Formula} (h : Ready ctx R e s g) (hf : f.Typed R.bounds (g.scope R)) :
    Ready ctx R e (s.assume f) g :=
  ⟨h.suits, (SymState.assume_frame s f).symm ▸ h.covers, h.typed.assume hf, h.known⟩

theorem Ready.grow (h : Ready ctx R e s g) (hg : g.Grows g') (hknown : g'.Known) :
    Ready ctx R e s g' :=
  ⟨h.suits, h.covers, h.typed.grow hg, hknown⟩

theorem reaches_assume {f : Formula} (hs : s.Typed R vars g) (hg : g.Known)
    (hf : f.Typed R.bounds (g.scope R)) : Reaches R vars s (s.assume f) g g :=
  ⟨.refl g, hg, hs.assume hf, fun _ => SymState.mem_facts_assume, adds_of_eq rfl⟩

theorem Updates.reaches (h : Updates s s' g g') (hg : g'.Known) (hs : s'.Typed R vars g') :
    Reaches R vars s s' g g' :=
  ⟨h.grows, hg, hs, fun _ hf => h.facts ▸ hf, adds_of_eq h.obligations⟩

/-- A run on a command that is well-typed and has no faults where it stands. -/
structure CommandRun (ctx : GenContext) (R : Rules) (e : Scoping.Env) (c : Command) (frame : Frame)
    (s s' : SymState) (g g' : Generator) : Prop where
  ready : Ready ctx R e s g
  typed : c.WellTyped R e
  faultless : (Scoping.command e c).2 = []
  step : s.frame.step c = .ok frame
  gives : Gives (run ctx s ⟨c.origin, c.print⟩ c) g s' g'

/-- A run on such branches. -/
structure BranchesRun (ctx : GenContext) (R : Rules) (e : Scoping.Env) (bs : Branches) (subject : Subject)
    (s s' : SymState) (g g' : Generator) : Prop where
  ready : Ready ctx R e s g
  typed : bs.WellTyped R e
  faultless : Scoping.branches e bs = []
  gives : Gives (alternative ctx s subject bs) g s' g'

/-- A run on such a block. -/
structure BlockRun (ctx : GenContext) (R : Rules) (e : Scoping.Env) (cs : List Command) (s s' : SymState)
    (g g' : Generator) : Prop where
  ready : Ready ctx R e s g
  typed : Command.AllWellTyped R e cs
  faultless : (Scoping.block e cs).2 = []
  gives : Gives (block ctx s cs) g s' g'

theorem BlockRun.keeps {cs : List Command} (h : BlockRun ctx R e cs s s' g g') (x : String) (t : Ty) :
    e.scope.vars.get? x = some t → (Scoping.block e cs).1.scope.vars.get? x = some t :=
  (Scoping.block_extends h.faultless).type?

/-- Whether a block leaves well-typed states, with the variables that there were before it. -/
def BlockReaches (ctx : GenContext) (R : Rules) (e : Scoping.Env) (b : List Command) : Prop :=
  ∀ {s s' g g'}, BlockRun ctx R e b s s' g g' →
    s'.frame.Covers ctx.functions e ∧ Reaches R e.scope.vars s s' g g'

theorem blockReaches_of {b : List Command} (h : ∀ {s s' g g'}, BlockRun ctx R e b s s' g g' →
    s'.frame.Covers ctx.functions (Scoping.block e b).1 ∧
      Reaches R (Scoping.block e b).1.scope.vars s s' g g') : BlockReaches ctx R e b := by
  intro s s' g g' hrun
  obtain ⟨hcov, hreach⟩ := h hrun
  exact ⟨hcov.before (Scoping.block_extends hrun.faultless), hreach.mono hrun.keeps⟩

/-! ### Conditionals -/

/-- The course of a conditional: its condition, the two branches and what is made of them. -/
structure BranchCourse (R : Rules) (ctx : GenContext) (e : Scoping.Env) (subject : Subject)
    (c : Formula) (b : List Command) (rest : Branches) (s s' : SymState) (g g' : Generator) where
  cond : Formula
  {before thenState elseState : SymState}
  {g₁ g₂ g₃ : Generator}
  conditions : FormulaConditions R e.scope.vars c s before g g₁
  condTyped : cond.Typed R.bounds (g₁.scope R)
  meaning : Meant R e.scope.vars s g g₁ fun I ρ σ => cond.Holds I ρ ↔ c.Holds I σ
  thenReady : Ready ctx R e (before.assume cond) g₁
  thenRun : Gives (block ctx (before.assume cond) b) g₁ thenState g₂
  thenReaches : Reaches R e.scope.vars (before.assume cond) thenState g₁ g₂
  elseReady : Ready ctx R e (before.assume cond.negate) g₂
  elseRun : Gives (alternative ctx (before.assume cond.negate) subject rest) g₂ elseState g₃
  elseReaches : Reaches R e.scope.vars (before.assume cond.negate) elseState g₂ g₃
  updates : Updates before s' g₃ g'
  symbols : g'.symbols = g₃.symbols
  typed : s'.Typed R e.scope.vars g'
  merged : ∀ {I : Interp} {ρ σ : Valuation}, I.Equates g'.alikes → ρ.Fits g₃.symbols →
    (∀ f ∈ before.facts, f.Holds I ρ) →
    (cond.Holds I ρ → (thenState.values.valuation I ρ).AgreeFor σ e.scope.vars) →
    (¬ cond.Holds I ρ → (elseState.values.valuation I ρ).AgreeFor σ e.scope.vars) →
      s'.Matches I e.scope.vars g' ρ σ

variable {inv c : Formula} {body b : List Command} {o : Origin} {variant : Option Expr} {before : Expr}
variable {lo hi : Value} {rest : Branches} {frame : Frame}

theorem branchCourse (h : BranchesRun ctx R e (.branch c b rest) subject s s' g g')
    (hb : BlockReaches ctx R e b)
    (hrest : ∀ {s s' g g'}, BranchesRun ctx R e rest subject s s' g g' → Reaches R e.scope.vars s s' g g') :
    Nonempty (BranchCourse R ctx e subject c b rest s s' g g') := by
  obtain ⟨hready, ⟨hc, hwtb, hwtrest⟩, hf, h⟩ := h
  simp only [Scoping.branches, List.append_eq_nil_iff] at hf
  obtain ⟨⟨cond, s1⟩, g1, h1, h⟩ := h.bind
  obtain ⟨t, g2, h2, h⟩ := h.bind
  obtain ⟨u, g3, h3, h4⟩ := h.bind
  obtain ⟨hcond, hct, hmean⟩ := of_formula hready.typed hready.suits hready.sees hc h1
  have hready1 := hready.evaluated hcond.toEvaluated
  have hthen := hready1.assume hct
  have ht := (hb ⟨hthen, hwtb, hf.1.2, h2⟩).2
  have helse := (hready1.assume hct.negate).grow ht.grows ht.known
  have hu := hrest ⟨helse, hwtrest, hf.2, h3⟩
  have hgrow := ht.grows.trans hu.grows
  obtain ⟨hup, hsym, hs', hmerge⟩ := of_merge (hready1.typed.grow hgrow) (ht.typed.grow hu.grows)
    hu.typed (hct.extend _ (hgrow.extends R _)) h4
  exact ⟨⟨cond, hcond, hct, hmean, hthen, h2, ht, helse, h3, hu, hup, hsym, hs', hmerge⟩⟩

/-- The course of a conditional without a condition. -/
structure OtherwiseCourse (R : Rules) (ctx : GenContext) (e : Scoping.Env) (b : List Command)
    (s s' : SymState) (g g' : Generator) where
  {stop : SymState}
  {g₁ : Generator}
  blockRun : Gives (block ctx s b) g stop g₁
  blockReaches : Reaches R e.scope.vars s stop g g₁
  updates : Updates s s' g₁ g'
  known : g'.Known
  typed : s'.Typed R e.scope.vars g'
  copied : ∀ {I : Interp} {ρ σ : Valuation}, ρ.Fits g₁.symbols → (∀ f ∈ s.facts, f.Holds I ρ) →
    (stop.values.valuation I ρ).AgreeFor σ e.scope.vars → s'.Matches I e.scope.vars g' ρ σ

theorem otherwiseCourse (h : CommandRun ctx R e (.cond (.otherwise b) o) frame s s' g g')
    (hblock : BlockReaches ctx R e b) : Nonempty (OtherwiseCourse R ctx e b s s' g g') := by
  obtain ⟨hready, hwt, hf, -, h⟩ := h
  simp only [run] at h
  obtain ⟨stop, g₁, h1, h2⟩ := h.bind
  have hreach := (hblock ⟨hready, hwt, hf, h1⟩).2
  obtain ⟨hup, hsym, hs', hcopied⟩ := of_copyValues (hready.typed.grow hreach.grows) hreach.typed h2
  exact ⟨⟨h1, hreach, hup, fun x t hx => hreach.known x t (hsym ▸ hx), hs', hcopied⟩⟩

theorem OtherwiseCourse.reaches (r : OtherwiseCourse R ctx e b s s' g g') :
    s'.frame = s.frame ∧ Reaches R e.scope.vars s s' g g' :=
  ⟨r.updates.frame, r.blockReaches.grows.trans r.updates.grows, r.known, r.typed,
    fun _ hf => r.updates.facts ▸ hf, r.blockReaches.adds.trans (adds_of_eq r.updates.obligations)⟩

/-- A conditional with a condition is run like its further branches. -/
theorem conditional_branch (c : Formula) (b : List Command) (rest : Branches) :
    conditional ctx s subject (.branch c b rest) = alternative ctx s subject (.branch c b rest) := by
  simp only [conditional, alternative]

theorem BranchCourse.reaches (r : BranchCourse R ctx e subject c b rest s s' g g') (hg : g.Known) :
    s'.frame = s.frame ∧ Reaches R e.scope.vars s s' g g' := by
  have h1 := r.conditions.reaches hg
  have hknown : g'.Known := fun x t hx => r.elseReaches.known x t (r.symbols ▸ hx)
  have hgrow := (r.thenReaches.grows.trans r.elseReaches.grows).trans r.updates.grows
  refine ⟨r.updates.frame.trans r.conditions.frame, h1.grows.trans hgrow, hknown, r.typed,
    fun f hf => r.updates.facts ▸ h1.facts f hf, ?_⟩
  have hfacts : ∀ cond, ∀ f ∈ s.facts, f ∈ (r.before.assume cond).facts :=
    fun _ f hf => SymState.mem_facts_assume (h1.facts f hf)
  exact ((h1.adds.trans (r.thenReaches.adds.of_facts (hfacts _))).trans
    (r.elseReaches.adds.of_facts (hfacts _))).trans (adds_of_eq r.updates.obligations)

/-! ### Iterations -/

/-- Whether a state stands for every store in which only written variables have changed and an invariant is
true. -/
def Restarts (R : Rules) (vars : NameMap Ty) (written : Names) (inv : Formula) (s s' : SymState)
    (g g' : Generator) : Prop :=
  ∀ {M : Machine} {gF : Generator} {ρ σ σ' : Valuation}, Sound R M gF → g'.Grows gF →
    s.Matches M.interp vars g ρ σ → σ'.Fits vars →
    (∀ x t, vars.get? x = some t → x ∉ written.members → σ' x = σ x) →
    M.Answers σ' (inv.visit Frame.outsideQuantifiers) → inv.Holds M.interp σ' →
      ∃ ρ', ρ.AgreeFor ρ' g.symbols ∧ s'.Matches M.interp vars g' ρ' σ'

theorem of_iteration {written : Names} (hs : s.Typed R vars g) (hR : R.Suits ctx.functions)
    (hcov : s.frame.Covers ctx.functions e) (hg : g.Known)
    (hframe : ∀ x t, vars.get? x = some t → s.frame.type? x = some t)
    (hinv : inv.Typed R.bounds ⟨vars, R.calls⟩) (h : Gives (iteration ctx s subject written inv) g s' g') :
    s'.frame = s.frame ∧ Reaches R vars s s' g g' ∧ Restarts R vars written inv s s' g g' := by
  obtain ⟨s1, g1, h1, h2⟩ := h.bind
  obtain ⟨⟨f, s2⟩, g2, h3, h4⟩ := h2.bind
  obtain ⟨rfl, rfl⟩ := gives_pure h4
  obtain ⟨hup, hg1, hs1, hmatch⟩ := of_havoc hs hframe hcov.known hg h1
  have hsees : Sees ctx R vars s1 := by
    unfold Sees programScope
    rw [hup.frame]
    exact sees_of_covers hcov hR hframe
  obtain ⟨hc, hft, hmean⟩ := of_formula hs1 hR hsees hinv h3
  have hr := (hup.reaches hg1 hs1).trans (hc.reaches hg1)
  refine ⟨?_, hr.trans (reaches_assume hr.typed hr.known hft), ?_⟩
  · rw [SymState.assume_frame, hc.frame, hup.frame]
  · intro M gF ρ σ σ' hF hgF hm hfits hσ hans hholds
    obtain ⟨ρ', hagree, hm1⟩ := hmatch hm hfits hσ
    obtain ⟨-, hm2⟩ := hc.sound hF hgF hm1 hans
    exact ⟨ρ', hagree, hm2.assume ((hmean hF.regular (hF.of_grows hgF) hm1).mpr hholds)⟩

/-! ### Loops with a condition -/

/-- What is done about a variant before the body of a loop. -/
def Opens (ctx : GenContext) (subject : Subject) (variant : Option Expr) (s : SymState)
    (g : Generator) (before : Expr) (s' : SymState) (g' : Generator) : Prop :=
  match ctx.modes.termination, variant with
  | .total, some v => ∃ g1, Gives (expr ctx s subject v) g (before, s') g1 ∧
      Gives (emit ctx s' .variantNonnegative subject (.compare .ge before (.num 0))) g1 () g'
  | .total, none => s' = s ∧ Gives (emit ctx s .variantMissing subject (.lit false)) g () g'
  | .unchecked, _ => s' = s ∧ g' = g

/-- What is done about a variant after the body of a loop. -/
def Closes (ctx : GenContext) (subject : Subject) (variant : Option Expr) (before : Expr)
    (s : SymState) (g g' : Generator) : Prop :=
  match ctx.modes.termination, variant with
  | .total, some v => ∃ after s' g1, Gives (expr ctx s subject v) g (after, s') g1 ∧
      Gives (emit ctx s' .variantDecreases subject (.compare .lt after before)) g1 () g'
  | _, _ => g' = g

theorem of_whileLoop (h : Gives (run ctx s subject (.whileLoop c inv variant body o)) g s' g') :
    ∃ entry g₁ head g₂ guard tested g₃ before start g₄ stop g₅ last g₆,
      Gives (check ctx s .invariantEntry subject inv) g entry g₁ ∧
      Gives (iteration ctx entry subject (Command.affectedAll body) inv) g₁ head g₂ ∧
      Gives (formula ctx head subject c) g₂ (guard, tested) g₃ ∧
      Opens ctx subject variant (tested.assume guard) g₃ before start g₄ ∧
      Gives (block ctx start body) g₄ stop g₅ ∧
      Gives (check ctx stop .invariantPreserved subject inv) g₅ last g₆ ∧
      Closes ctx subject variant before last g₆ g' ∧ s' = tested.assume guard.negate := by
  obtain ⟨entry, g₁, h1, h⟩ := h.bind
  obtain ⟨head, g₂, h2, h⟩ := h.bind
  obtain ⟨⟨guard, tested⟩, g₃, h3, h⟩ := h.bind
  refine ⟨entry, g₁, head, g₂, guard, tested, g₃, ?_⟩
  unfold Opens Closes
  cases hmode : ctx.modes.termination with
  | unchecked =>
    simp only [hmode] at h
    obtain ⟨stop, g₅, h5, h⟩ := h.bind
    obtain ⟨last, g₆, h6, h⟩ := h.bind
    obtain ⟨rfl, rfl⟩ := gives_pure h
    exact ⟨.num 0, _, _, stop, g₅, last, g', h1, h2, h3, ⟨rfl, rfl⟩, h5, h6, rfl, rfl⟩
  | total =>
    cases variant with
    | none =>
      simp only [hmode] at h
      obtain ⟨_, g₄, h4, h⟩ := h.bind
      obtain ⟨stop, g₅, h5, h⟩ := h.bind
      obtain ⟨last, g₆, h6, h⟩ := h.bind
      obtain ⟨rfl, rfl⟩ := gives_pure h
      exact ⟨.num 0, _, g₄, stop, g₅, last, g', h1, h2, h3, ⟨rfl, h4⟩, h5, h6, rfl, rfl⟩
    | some v =>
      simp only [hmode] at h
      obtain ⟨⟨before, start⟩, g₃', h4, h⟩ := h.bind
      obtain ⟨_, g₄, h4', h⟩ := h.bind
      obtain ⟨stop, g₅, h5, h⟩ := h.bind
      obtain ⟨last, g₆, h6, h⟩ := h.bind
      obtain ⟨⟨after, b⟩, g₇, h7, h⟩ := h.bind
      obtain ⟨_, g₈, h8, h⟩ := h.bind
      obtain ⟨rfl, rfl⟩ := gives_pure h
      exact ⟨before, start, g₄, stop, g₅, last, g₆, h1, h2, h3, ⟨g₃', h4, h4'⟩, h5, h6,
        ⟨after, b, g₇, h7, h8⟩, rfl⟩

section Variants

variable (hready : Ready ctx R e s g) (hvariant : ∀ v ∈ variant, v.Typed R.bounds (R.scope e) .i32)
include hready hvariant

theorem Opens.evaluated (h : Opens ctx subject variant s g before s' g') :
    Evaluated R e.scope.vars s s' g g' ∧
      StaysMatched R e.scope.vars s s' g g' fun M σ => M.Answers σ (variantNodes variant) := by
  unfold Opens at h
  split at h
  · next v _ =>
    obtain ⟨g1, h1, h2⟩ := h
    obtain ⟨hc, -, -⟩ := of_expr hready.typed hready.suits hready.sees (hvariant v rfl) h1
    obtain ⟨hgrow, hsym, -⟩ := of_emit h2
    refine ⟨hc.toEvaluated.emit h2, fun hF hgF hm hans => ?_⟩
    exact (hc.sound hF (hgrow.trans hgF) hm hans).2.withSymbols hsym
  · obtain ⟨rfl, h⟩ := h
    exact ⟨(Evaluated.refl hready.typed).emit h, fun _ _ hm _ => hm.withSymbols (of_emit h).2.1⟩
  · obtain ⟨rfl, rfl⟩ := h
    exact ⟨.refl hready.typed, fun _ _ hm _ => hm⟩

theorem Closes.evaluated (h : Closes ctx subject variant before s g g') :
    g.Grows g' ∧ g'.Known ∧ AddsUnder s g g' := by
  unfold Closes at h
  split at h
  · next v _ =>
    obtain ⟨after, s', g1, h1, h2⟩ := h
    obtain ⟨hc, -, -⟩ := of_expr hready.typed hready.suits hready.sees (hvariant v rfl) h1
    have he := hc.toEvaluated.emit h2
    exact ⟨he.grows, (he.reaches hready.known).known, he.adds⟩
  · subst h
    exact ⟨.refl _, hready.known, adds_of_eq rfl⟩

/-- The variant is not negative where the body is run. -/
theorem Opens.nonneg {M : Machine} {gF : Generator} (h : Opens ctx subject variant s g before s' g')
    (hmode : ctx.modes.termination = .total)
    (hF : Sound R M gF) (hgF : g'.Grows gF) (hm : s.Matches M.interp e.scope.vars g ρ σ)
    (hans : M.Answers σ (variantNodes variant)) :
    ∃ v, variant = some v ∧ before.Typed R.bounds (g'.scope R) .i32 ∧
      before.eval M.interp ρ = v.eval M.interp σ ∧ 0 ≤ (v.eval M.interp σ).toInt := by
  unfold Opens at h
  rw [hmode] at h
  cases variant with
  | none =>
    obtain ⟨rfl, h⟩ := h
    have hfalse := (hF.emit hgF hready.typed h trivial hm).1
    simp [Formula.Holds] at hfalse
  | some v =>
    obtain ⟨g1, h1, h2⟩ := h
    have hv := hvariant v rfl
    obtain ⟨hc, hbt, heval⟩ := of_expr hready.typed hready.suits hready.sees hv h1
    have hgrow := (of_emit h2).1
    have hgF1 := hgrow.trans hgF
    obtain ⟨-, hm1⟩ := hc.sound hF hgF1 hm hans
    have hgoal := (hF.emit hgF hc.typed h2 ⟨.i32, .inr rfl, hbt, rfl⟩ hm1).1
    have hbefore := heval hF.regular (hF.of_grows hgF1) hm
    have hint := Expr.Typed.eval_int (Γ := ⟨e.scope.vars, R.calls⟩) hv hF.regular
      (hm.store_fits hready.typed hF.regular)
    refine ⟨v, rfl, hbt.extend _ (hgrow.extends R _), hbefore, ?_⟩
    rw [Formula.Holds, hbefore, hint] at hgoal
    simpa [Comparison.Holds, Expr.eval, Val.Le] using hgoal

end Variants

/-- The variant is less after the body than before it. -/
theorem Closes.decreases {v : Expr} {M : Machine} {gF : Generator} (hready : Ready ctx R e s g)
    (hv : v.Typed R.bounds (R.scope e) .i32) (hbefore : before.Typed R.bounds (g.scope R) .i32)
    (h : Closes ctx subject (some v) before s g g') (hmode : ctx.modes.termination = .total)
    (hF : Sound R M gF) (hgF : g'.Grows gF) (hm : s.Matches M.interp e.scope.vars g ρ σ)
    (hans : M.Answers σ (variantNodes (some v))) :
    (v.eval M.interp σ).toInt < (before.eval M.interp ρ).toInt := by
  unfold Closes at h
  rw [hmode] at h
  obtain ⟨after, s', g1, h1, h2⟩ := h
  obtain ⟨hc, hat, heval⟩ := of_expr hready.typed hready.suits hready.sees hv h1
  have hgF1 := (of_emit h2).1.trans hgF
  obtain ⟨-, hm1⟩ := hc.sound hF hgF1 hm hans
  have hgoal := (hF.emit hgF hc.typed h2 ⟨.i32, .inr rfl, hat, hbefore.extend _ (hc.grows.extends R _)⟩ hm1).1
  have hafter := heval hF.regular (hF.of_grows hgF1) hm
  have hint := Expr.Typed.eval_int (Γ := ⟨e.scope.vars, R.calls⟩) hv hF.regular
    (hm.store_fits hready.typed hF.regular)
  have hint' := Expr.Typed.eval_int (Γ := g.scope R) hbefore hF.regular hm.fits
  rw [Formula.Holds, hafter, hint, hint'] at hgoal
  simpa [Comparison.Holds, Val.Lt] using hgoal

/-- The course of a loop with a condition: the invariant on entry, any iteration, and the invariant
after it. -/
structure WhileCourse (R : Rules) (ctx : GenContext) (e : Scoping.Env) (subject : Subject)
    (c inv : Formula) (variant : Option Expr) (body : List Command) (s s' : SymState)
    (g g' : Generator) where
  guard : Formula
  before : Expr
  {entry head tested start stop last : SymState}
  {g₁ g₂ g₃ g₄ g₅ g₆ : Generator}
  entryCheck : CheckConditions R e.scope.vars inv s entry g g₁
  headFrame : head.frame = entry.frame
  headReaches : Reaches R e.scope.vars entry head g₁ g₂
  headMatches : Restarts R e.scope.vars (Command.affectedAll body) inv entry head g₁ g₂
  guardConditions : FormulaConditions R e.scope.vars c head tested g₂ g₃
  guardTyped : guard.Typed R.bounds (g₃.scope R)
  guardMeaning : Meant R e.scope.vars head g₂ g₃ fun I ρ σ => guard.Holds I ρ ↔ c.Holds I σ
  testedReady : Ready ctx R e (tested.assume guard) g₃
  opens : Opens ctx subject variant (tested.assume guard) g₃ before start g₄
  bodyReady : Ready ctx R e start g₄
  bodyRun : Gives (block ctx start body) g₄ stop g₅
  bodyReaches : Reaches R e.scope.vars start stop g₄ g₅
  stopReady : Ready ctx R e stop g₅
  preserved : CheckConditions R e.scope.vars inv stop last g₅ g₆
  closes : Closes ctx subject variant before last g₆ g'
  result : s' = tested.assume guard.negate

theorem Reaches.ready (h : Reaches R e.scope.vars s s' g g') (hR : R.Suits ctx.functions)
    (hcov : s'.frame.Covers ctx.functions e) : Ready ctx R e s' g' :=
  ⟨hR, hcov, h.typed, h.known⟩

theorem whileCourse (h : CommandRun ctx R e (.whileLoop c inv variant body o) frame s s' g g')
    (hbody : BlockReaches ctx R e body) : Nonempty (WhileCourse R ctx e
      ⟨o, (Command.whileLoop c inv variant body o).print⟩ c inv variant body s s' g g') := by
  obtain ⟨hready, ⟨hc, hinv, hvariant, hwtbody⟩, hf, -, h⟩ := h
  simp only [Scoping.command, List.append_eq_nil_iff] at hf
  obtain ⟨entry, g₁, head, g₂, guard, tested, g₃, before, start, g₄, stop, g₅, last, g₆, h1, h2, h3,
    h4, h5, h6, h7, h8⟩ := of_whileLoop h
  have hentry := of_check hready.typed hready.suits hready.sees hinv h1
  have hready1 := hready.evaluated hentry.toEvaluated
  obtain ⟨hframe, hhead, hmatches⟩ := of_iteration hready1.typed hready.suits hready1.covers
    hready1.known hready1.covers.types hinv h2
  have hready2 := hhead.ready hready.suits (hframe ▸ hready1.covers)
  obtain ⟨hguard, hgt, hmean⟩ := of_formula hready2.typed hready.suits hready2.sees hc h3
  have hready3 := (hready2.evaluated hguard.toEvaluated).assume hgt
  have hopens := (h4.evaluated hready3 hvariant).1
  have hready4 := hready3.evaluated hopens
  obtain ⟨hcov, hstop⟩ := hbody ⟨hready4, hwtbody, hf.2, h5⟩
  have hready5 := hstop.ready hready.suits hcov
  have hpres := of_check hready5.typed hready.suits hready5.sees hinv h6
  exact ⟨⟨guard, before, hentry, hframe, hhead, hmatches, hguard, hgt, hmean, hready3, h4, hready4, h5,
    hstop, hready5, hpres, h7, h8⟩⟩

theorem WhileCourse.reaches (r : WhileCourse R ctx e subject c inv variant body s s' g g')
    (hready : Ready ctx R e s g) (hvariant : ∀ v ∈ variant, v.Typed R.bounds (R.scope e) .i32) :
    s'.frame = s.frame ∧ Reaches R e.scope.vars s s' g g' := by
  have hr3 := ((r.entryCheck.reaches hready.known).trans r.headReaches).trans
    (r.guardConditions.reaches r.headReaches.known)
  have hr4 := (hr3.trans (reaches_assume hr3.typed hr3.known r.guardTyped)).trans
    ((r.opens.evaluated r.testedReady hvariant).1.reaches r.testedReady.known)
  have hr6 := (hr4.trans r.bodyReaches).trans (r.preserved.reaches r.bodyReaches.known)
  have hready6 := r.stopReady.evaluated r.preserved.toEvaluated
  obtain ⟨hgrow, hknown, hadds⟩ := r.closes.evaluated hready6 hvariant
  have hlater : r.g₃.Grows g' := ((((r.opens.evaluated r.testedReady hvariant).1.grows.trans
    r.bodyReaches.grows).trans r.preserved.grows).trans hgrow)
  rw [r.result]
  refine ⟨?_, hr3.grows.trans hlater, hknown, (hr3.typed.assume r.guardTyped.negate).grow hlater,
    fun f hf => SymState.mem_facts_assume (hr3.facts f hf), hr6.adds.trans (hadds.of_facts hr6.facts)⟩
  rw [SymState.assume_frame, r.guardConditions.frame, r.headFrame, r.entryCheck.frame]

/-! ### Loops over a range -/

theorem of_forRange {i : String} (h : Gives (run ctx s subject (.forRange i lo hi inv body o)) g s' g') :
    ∃ first s₁ g₁ bound s₂ g₂ frame entry g₃ head g₄ stop g₅ g₆ next g₇ last,
      Gives (value ctx s subject lo) g (first, s₁) g₁ ∧
      Gives (value ctx s₁ subject hi) g₁ (bound, s₂) g₂ ∧
      s₂.frame.declare ⟨i, .i32, false, none⟩ none = .ok frame ∧
      Gives (check ctx { s₂.set i first with frame } .invariantEntry subject inv) g₂ entry g₃ ∧
      Gives (iteration ctx entry subject ((Command.affectedAll body).insert i) inv) g₃ head g₄ ∧
      Gives (block ctx (head.assume (.compare .lt (head.valueOf i).toExpr bound.toExpr)) body) g₄
        stop g₅ ∧
      Gives (noteLoss (!stop.isVariable i)) g₅ () g₆ ∧
      Gives (keep (Expr.toValue (.op .add (stop.valueOf i).toExpr (.num 1)))) g₆ next g₇ ∧
      Gives (check ctx (stop.set i next) .invariantPreserved subject inv) g₇ last g' ∧
      s' = { (head.assume (Formula.negate (.compare .lt (head.valueOf i).toExpr
        bound.toExpr))).forget i with frame := s₂.frame } := by
  obtain ⟨⟨first, s₁⟩, g₁, h1, h⟩ := h.bind
  obtain ⟨⟨bound, s₂⟩, g₂, h2, h⟩ := h.bind
  obtain ⟨frame, g₂', h3, h⟩ := h.bind
  obtain ⟨hframe, hg⟩ := h3.inScope
  rw [hg] at h
  obtain ⟨entry, g₃, h4, h⟩ := h.bind
  obtain ⟨head, g₄, h5, h⟩ := h.bind
  obtain ⟨stop, g₅, h6, h⟩ := h.bind
  obtain ⟨_, g₆, h7, h⟩ := h.bind
  obtain ⟨next, g₇, h8, h⟩ := h.bind
  obtain ⟨last, g₈, h9, h⟩ := h.bind
  obtain ⟨rfl, rfl⟩ := gives_pure h
  exact ⟨first, s₁, g₁, bound, s₂, g₂, frame, entry, g₃, head, g₄, stop, g₅, g₆, next, g₇, last, h1,
    h2, hframe, h4, h5, h6, h7, h8, h9, rfl⟩

/-- The variables in the body of a loop over a range. -/
abbrev rangeVars (e : Scoping.Env) (i : String) : NameMap Ty := (Scoping.declare e i .i32 false).scope.vars

/-- The condition under which a loop over a range goes on. -/
def rangeGuard (i : String) (head : SymState) (bound : Value) : Formula :=
  .compare .lt (head.valueOf i).toExpr bound.toExpr

/-- The course of a loop over a range: its bounds, the invariant on entry, any iteration, and the
invariant for the next one. -/
structure ForCourse (R : Rules) (ctx : GenContext) (e : Scoping.Env) (subject : Subject)
    (i : String) (lo hi : Value) (inv : Formula) (body : List Command) (s s' : SymState)
    (g g' : Generator) where
  (first bound next : Value)
  (frame : Frame)
  {s₁ s₂ entry head stop last : SymState}
  {g₁ g₂ g₃ g₄ g₅ g₇ : Generator}
  loConditions : ValueConditions R e.scope.vars lo .i32 s s₁ g g₁
  firstTyped : first.Typed R.bounds (g₁.scope R) .i32
  firstMeaning : Meant R e.scope.vars s g g₁ fun I ρ σ => first.eval I ρ = lo.eval I σ
  hiConditions : ValueConditions R e.scope.vars hi .i32 s₁ s₂ g₁ g₂
  boundTyped : bound.Typed R.bounds (g₂.scope R) .i32
  boundMeaning : Meant R e.scope.vars s₁ g₁ g₂ fun I ρ σ => bound.eval I ρ = hi.eval I σ
  entryCheck : CheckConditions R (e.scope.vars.insert i .i32) inv { s₂.set i first with frame } entry g₂ g₃
  headReaches : Reaches R (e.scope.vars.insert i .i32) entry head g₃ g₄
  headMatches : Restarts R (e.scope.vars.insert i .i32) ((Command.affectedAll body).insert i) inv entry
    head g₃ g₄
  guardTyped : (rangeGuard i head bound).Typed R.bounds (g₄.scope R)
  bodyReady : Ready ctx R (Scoping.declare e i .i32 false)
    (head.assume (rangeGuard i head bound)) g₄
  bodyRun : Gives (block ctx (head.assume (rangeGuard i head bound)) body) g₄ stop g₅
  bodyReaches : Reaches R (rangeVars e i) (head.assume (rangeGuard i head bound)) stop g₄ g₅
  nextUpdates : Updates stop (stop.set i next) g₅ g₇
  nextKnown : g₇.Known
  nextMatches : ∀ {I : Interp} {ρ σ : Valuation} (n : ℤ), (i ≠ "_" → σ i = .int n) →
    stop.Matches I (rangeVars e i) g₅ ρ σ →
      (stop.set i next).Matches I (rangeVars e i) g₇ ρ (Function.update σ i (.int (n + 1)))
  preserved : CheckConditions R (rangeVars e i) inv (stop.set i next) last g₇ g'
  result : s' = { (head.assume (rangeGuard i head bound).negate).forget i with frame := s₂.frame }

/-- The iterator is new. -/
theorem get?_iterator {i : String} (hwild : e.vars.get? "_" = none)
    (hd : Scoping.declareFaults e o i .i32 = []) : e.scope.vars.get? i = none := by
  rw [Scoping.Env.type?_scope]
  by_cases hi : i = "_"
  · rw [hi, hwild]
    rfl
  · rw [(Scoping.of_declareFaults hd hi).2.1]
    rfl

theorem vars_declare_sub (hwild : e.vars.get? "_" = none) (i : String) (x : String) (t : Ty)
    (h : (rangeVars e i).get? x = some t) : (e.scope.vars.insert i .i32).get? x = some t := by
  rw [NameMap.get?_insert]
  rcases Scoping.adjoins_declare hwild i .i32 false x t h with ⟨rfl, rfl⟩ | ⟨hne, hx⟩
  · rw [if_pos rfl]
  · rw [if_neg (Ne.symm hne), hx]

theorem get?_declare_wildcard (hwild : e.vars.get? "_" = none) (i : String) (t : Ty) (m : Bool) :
    (Scoping.declare e i t m).vars.get? "_" = none := by
  unfold Scoping.declare
  split_ifs with hi
  · exact hwild
  · rw [Scoping.Env.get?_add, if_neg hi, hwild]

section Next

variable {i : String} {next : Value} {g₆ g₇ : Generator} {stop : SymState}
  (hwild : e.vars.get? "_" = none) (hs : stop.Typed R (rangeVars e i) g)
  (hloss : Gives (noteLoss (!stop.isVariable i)) g () g₆)
  (hkeep : Gives (keep (Expr.toValue (.op .add (stop.valueOf i).toExpr (.num 1)))) g₆ next g₇)
include hwild hs hloss hkeep

omit hwild hloss in
/-- The iterator has the next value, unless it is a wildcard. -/
theorem next_eq (hi : i ≠ "_") : ∃ w, stop.values.get? i = some w ∧
    w.Typed R.bounds (g.scope R) .i32 ∧
    next = Expr.toValue (.op .add w.toExpr (.num 1)) ∧ next.Typed R.bounds (g.scope R) .i32 := by
  have hmem : (rangeVars e i).get? i = some .i32 := by
    rw [Scoping.Env.type?_scope, Scoping.declare, if_neg hi, Scoping.Env.get?_add, if_pos rfl]
    rfl
  obtain ⟨w, hw, hwt⟩ := hs.values i .i32 hmem
  have hvalue : stop.valueOf i = w := by simp [SymState.valueOf, hw]
  have hnext : (Expr.toValue (.op .add w.toExpr (.num 1))).Typed R.bounds (g.scope R) .i32 :=
    Expr.Typed.toValue ⟨rfl, hwt.toExpr, rfl⟩
  rw [hvalue] at hkeep
  obtain rfl := eq_of_keep hnext.isWhole hkeep
  exact ⟨w, hw, hwt, rfl, hnext⟩

theorem typed_next : (stop.set i next).Typed R (rangeVars e i) g₇ := by
  have hgrow := (same_noteLoss hloss).grows.trans (same_keep hkeep).grows
  have hadj : (rangeVars e i).Adjoins i .i32 (rangeVars e i) := by
    intro y u hy
    by_cases hyi : y = i
    · rcases Scoping.adjoins_declare hwild i .i32 false y u hy with h | h
      · exact .inl h
      · exact absurd hyi h.1
    · exact .inr ⟨hyi, hy⟩
  by_cases hi : i = "_"
  · refine (SymState.Typed.grow ⟨fun y u hy => ?_, hs.facts⟩ hgrow)
    have hne : y ≠ i := by
      rintro rfl
      rw [Scoping.Env.type?_scope, hi, get?_declare_wildcard hwild] at hy
      cases hy
    obtain ⟨w, hw, hwt⟩ := hs.values y u hy
    exact ⟨w, by simpa [SymState.set, Ne.symm hne] using hw, hwt⟩
  · obtain ⟨w, -, -, -, hnext⟩ := next_eq hs hkeep hi
    exact (hs.set hadj hnext).grow hgrow

theorem matches_next {I : Interp} (n : ℤ) (hσ : i ≠ "_" → σ i = .int n)
    (hm : stop.Matches I (rangeVars e i) g ρ σ) :
    (stop.set i next).Matches I (rangeVars e i) g₇ ρ (Function.update σ i (.int (n + 1))) := by
  have hsym : g₇.symbols = g.symbols :=
    (same_keep hkeep).symbols.trans (same_noteLoss hloss).symbols
  refine ⟨hsym ▸ hm.fits, fun y u hy => ?_, hm.facts⟩
  by_cases hyi : y = i
  · subst hyi
    have hi : y ≠ "_" := by
      rintro rfl
      rw [Scoping.Env.type?_scope, get?_declare_wildcard hwild] at hy
      cases hy
    obtain ⟨w, hw, -, rfl, -⟩ := next_eq hs hkeep hi
    have hval := hm.values y u hy
    rw [valuation_of_get? hw, hσ hi] at hval
    rw [SymState.valuation_set_self, Function.update_self]
    simp [Expr.toValue, Value.eval, Expr.eval, Value.eval_toExpr, hval, Val.toInt, Interp.operate]
  · rw [SymState.valuation_set_of_ne _ _ hyi, Function.update_of_ne hyi]
    exact hm.values y u hy

end Next

theorem forCourse {i : String} (h : CommandRun ctx R e (.forRange i lo hi inv body o) frame s s' g g')
    (hbody : BlockReaches ctx R (Scoping.declare e i .i32 false) body) : Nonempty (ForCourse R ctx e
      ⟨o, (Command.forRange i lo hi inv body o).print⟩ i lo hi inv body s s' g g') := by
  obtain ⟨hready, ⟨hlo, hhi, hinv, hwtbody⟩, hf, -, h⟩ := h
  simp only [Scoping.command, List.append_eq_nil_iff] at hf
  obtain ⟨first, s₁, g₁, bound, s₂, g₂, frame, entry, g₃, head, g₄, stop, g₅, g₆, next, g₇, last, h1,
    h2, hframe, h4, h5, h6, h7, h8, h9, h10⟩ := of_forRange h
  have hwild := hready.covers.wildcard
  obtain ⟨hc1, hfirst, hmean1⟩ := of_value hready.typed hready.suits hready.sees hlo.1 h1
  have hready1 := hready.evaluated hc1.toEvaluated
  obtain ⟨hc2, hbound, hmean2⟩ := of_value hready1.typed hready.suits hready1.sees hhi.1 h2
  have hready2 := hready1.evaluated hc2.toEvaluated
  -- The iterator is a variable of the loop even if it is a wildcard.
  have hcov := hready2.covers.declare (o := o) hf.1.1.2 hframe
  have htypes : ∀ x t, (e.scope.vars.insert i .i32).get? x = some t → frame.type? x = some t :=
    Frame.types_of_declare hframe hready2.covers.types
  have hinv' : inv.Typed R.bounds ⟨e.scope.vars.insert i .i32, R.calls⟩ :=
    hinv.extend inv ⟨fun x _ t ht => ⟨t, vars_declare_sub hwild i x t ht, rfl⟩, fun _ _ => id⟩
  have hset := hready2.typed.set (NameMap.adjoins_insert _ i .i32)
    (hfirst.extend _ (hc2.grows.extends R _))
  have hinner : SymState.Typed R (e.scope.vars.insert i .i32) g₂ { s₂.set i first with frame } :=
    ⟨hset.values, hset.facts⟩
  have hsees := sees_of_covers (s := { s₂.set i first with frame }) hcov hready.suits htypes
  have hentry := of_check hinner hready.suits hsees hinv' h4
  have hknown3 := (hentry.reaches hready2.known).known
  have hcov3 : entry.frame.Covers ctx.functions (Scoping.declare e i .i32 false) :=
    hentry.frame ▸ hcov
  obtain ⟨hframe5, hhead, hmatches⟩ := of_iteration hentry.typed hready.suits hcov3 hknown3
    (fun x t hx => hentry.frame ▸ htypes x t hx) hinv' h5
  obtain ⟨w, hw, hwt⟩ := hhead.typed.values i .i32 (by simp)
  have hvalue : head.valueOf i = w := by simp [SymState.valueOf, hw]
  have hgrow24 : g₂.Grows g₄ := hentry.grows.trans hhead.grows
  have hguard : (rangeGuard i head bound).Typed R.bounds (g₄.scope R) := by
    unfold rangeGuard
    rw [hvalue]
    exact ⟨.i32, .inr rfl, hwt.toExpr, (hbound.extend _ (hgrow24.extends R _)).toExpr⟩
  have hready4 : Ready ctx R (Scoping.declare e i .i32 false)
      (head.assume (rangeGuard i head bound)) g₄ :=
    Ready.assume ⟨hready.suits, hframe5 ▸ hcov3, hhead.typed.mono (vars_declare_sub hwild i),
      hhead.known⟩ hguard
  obtain ⟨hcov5, hstop⟩ := hbody ⟨hready4, hwtbody, hf.2, h6⟩
  have hsame6 := same_noteLoss h7
  have hsame7 := same_keep h8
  have hknown7 : g₇.Known := fun x t hx =>
    hstop.known x t (hsame6.symbols ▸ hsame7.symbols ▸ hx)
  have hsees7 : Sees ctx R (rangeVars e i) (stop.set i next) :=
    sees_of_covers hcov5 hready.suits hcov5.types
  have hnext := typed_next hwild hstop.typed h7 h8
  have hpres := of_check hnext hready.suits hsees7 hinv h9
  exact ⟨⟨first, bound, next, frame, hc1, hfirst, hmean1, hc2, hbound, hmean2, hentry, hhead, hmatches,
    hguard, hready4, h6, hstop,
    ⟨rfl, rfl, hsame6.grows.trans hsame7.grows, hsame7.obligations.trans hsame6.obligations⟩, hknown7,
    fun n hσ hm => matches_next hwild hstop.typed h7 h8 n hσ hm, hpres, h10⟩⟩

theorem ForCourse.grows_head {i : String} (r : ForCourse R ctx e subject i lo hi inv body s s' g g') :
    r.g₄.Grows g' := (r.bodyReaches.grows.trans r.nextUpdates.grows).trans r.preserved.grows

theorem ForCourse.reaches {i : String} (r : ForCourse R ctx e subject i lo hi inv body s s' g g')
    (hready : Ready ctx R e s g) (hd : Scoping.declareFaults e o i .i32 = []) :
    s'.frame = s.frame ∧ Reaches R e.scope.vars s s' g g' := by
  have hiter := get?_iterator hready.covers.wildcard hd
  have hr2 := (r.loConditions.reaches hready.known).trans
    (r.hiConditions.reaches (r.loConditions.reaches hready.known).known)
  have hr4 := (r.entryCheck.reaches hr2.known).trans r.headReaches
  have htyped := (hr4.typed.assume r.guardTyped.negate).grow r.grows_head
  rw [r.result]
  refine ⟨r.hiConditions.frame.trans r.loConditions.frame,
    (hr2.grows.trans hr4.grows).trans r.grows_head, (r.preserved.reaches r.nextKnown).known, ?_, ?_, ?_⟩
  · refine ⟨fun x t hx => ?_, htyped.facts⟩
    have hne : i ≠ x := by
      rintro rfl
      rw [hiter] at hx
      cases hx
    obtain ⟨v, hv, hvt⟩ := htyped.values x t (by rw [NameMap.get?_insert, if_neg hne, hx])
    exact ⟨v, by simpa [SymState.forget, hne] using hv, hvt⟩
  · exact fun f hf => SymState.mem_facts_assume (hr4.facts f (hr2.facts f hf))
  · have hfacts : ∀ f ∈ s.facts, f ∈ (r.head.assume (rangeGuard i r.head r.bound)).facts :=
      fun f hf => SymState.mem_facts_assume (hr4.facts f (hr2.facts f hf))
    have hstop : ∀ f ∈ s.facts, f ∈ r.stop.facts := fun f hf => r.bodyReaches.facts f (hfacts f hf)
    exact (((hr2.adds.trans (hr4.adds.of_facts hr2.facts)).trans (r.bodyReaches.adds.of_facts hfacts)).trans
      (adds_of_eq r.nextUpdates.obligations)).trans (r.preserved.adds.of_facts hstop)

/-! ### Blocks -/

theorem CommandRun.branches (h : CommandRun ctx R e (.cond (.branch c b rest) o) frame s s' g g') :
    BranchesRun ctx R e (.branch c b rest) ⟨o, (Command.cond (.branch c b rest) o).print⟩ s s' g g' := by
  obtain ⟨hready, hwt, hf, -, h⟩ := h
  simp only [run, conditional_branch] at h
  exact ⟨hready, hwt, hf, h⟩

theorem BranchesRun.first (h : BranchesRun ctx R e (.branch c b rest) subject s s' g g')
    (r : BranchCourse R ctx e subject c b rest s s' g g') :
    BlockRun ctx R e b (r.before.assume r.cond) r.thenState r.g₁ r.g₂ := by
  have hf := h.faultless
  simp only [Scoping.branches, List.append_eq_nil_iff] at hf
  exact ⟨r.thenReady, h.typed.2.1, hf.1.2, r.thenRun⟩

theorem BranchesRun.others (h : BranchesRun ctx R e (.branch c b rest) subject s s' g g')
    (r : BranchCourse R ctx e subject c b rest s s' g g') :
    BranchesRun ctx R e rest subject (r.before.assume r.cond.negate) r.elseState r.g₂ r.g₃ := by
  have hf := h.faultless
  simp only [Scoping.branches, List.append_eq_nil_iff] at hf
  exact ⟨r.elseReady, h.typed.2.2, hf.2, r.elseRun⟩

theorem CommandRun.whileBody (h : CommandRun ctx R e (.whileLoop c inv variant body o) frame s s' g g')
    (r : WhileCourse R ctx e subject c inv variant body s s' g g') :
    BlockRun ctx R e body r.start r.stop r.g₄ r.g₅ := by
  have hf := h.faultless
  simp only [Scoping.command, List.append_eq_nil_iff] at hf
  exact ⟨r.bodyReady, h.typed.2.2.2, hf.2, r.bodyRun⟩

theorem CommandRun.declareFaults {i : String}
    (h : CommandRun ctx R e (.forRange i lo hi inv body o) frame s s' g g') :
    Scoping.declareFaults e o i .i32 = [] := by
  have hf := h.faultless
  simp only [Scoping.command, List.append_eq_nil_iff] at hf
  exact hf.1.1.2

theorem CommandRun.forBody {i : String}
    (h : CommandRun ctx R e (.forRange i lo hi inv body o) frame s s' g g')
    (r : ForCourse R ctx e subject i lo hi inv body s s' g g') :
    BlockRun ctx R (Scoping.declare e i .i32 false) body (r.head.assume (rangeGuard i r.head r.bound)) r.stop
      r.g₄ r.g₅ := by
  have hf := h.faultless
  simp only [Scoping.command, List.append_eq_nil_iff] at hf
  exact ⟨r.bodyReady, h.typed.2.2.2, hf.2, r.bodyRun⟩

/-- The first command of a block is run, and the others are where it leaves a well-typed state. -/
theorem BlockRun.of_cons {c : Command} {cs : List Command} (h : BlockRun ctx R e (c :: cs) s s' g g') :
    ∃ frame s₁ g₁, CommandRun ctx R e c frame s s₁ g g₁ ∧
      (Reaches R (Scoping.command e c).1.scope.vars s s₁ g g₁ →
        BlockRun ctx R (Scoping.command e c).1 cs { s₁ with frame } s' g₁ g') := by
  obtain ⟨hready, hwt, hf, h⟩ := h
  obtain ⟨hfc, hfcs⟩ := Scoping.block_cons hf
  obtain ⟨frame, g₀, h0, h1⟩ := h.bind
  obtain ⟨hstep, rfl⟩ := h0.inScope
  obtain ⟨s₁, g₁, h1, h2⟩ := h1.bind
  refine ⟨frame, s₁, g₁, ⟨hready, hwt.1, hfc, hstep, h1⟩, fun hreach => ⟨?_, hwt.2, hfcs, h2⟩⟩
  exact ⟨hready.suits, hready.covers.step hfc hstep, ⟨hreach.typed.values, hreach.typed.facts⟩, hreach.known⟩

theorem CommandRun.simulates {c : Command} (fuel : ℕ) (hc : c.IsSimple)
    (h : CommandRun ctx R e c frame s s' g g') :
    s'.frame = s.frame ∧ (R.calls = [] → ¬ c.IsAssume → s'.facts = s.facts) ∧
      Simulates R e.scope.vars (Scoping.command e c).1.scope.vars s s' g g' fun M => c.exec M fuel :=
  simulates_simple fuel hc h.ready.suits h.ready.covers h.ready.typed h.ready.known h.typed h.faultless h.step
    h.gives

theorem reaches_simple {c : Command} (hc : c.IsSimple) (h : CommandRun ctx R e c frame s s' g g') :
    s'.frame = s.frame ∧ Reaches R (Scoping.command e c).1.scope.vars s s' g g' := by
  obtain ⟨hframe, -, hsim⟩ := h.simulates 0 hc
  exact ⟨hframe, hsim.toReaches⟩

mutual

/-- A command leaves a well-typed state. -/
theorem reaches_run (c : Command) {e frame s s' g g'} (h : CommandRun ctx R e c frame s s' g g') :
    s'.frame = s.frame ∧ Reaches R (Scoping.command e c).1.scope.vars s s' g g' := by
  cases c with
  | cond bs =>
    cases bs with
    | otherwise b =>
      obtain ⟨r⟩ := otherwiseCourse h (blockReaches_of (reaches_block b))
      exact r.reaches
    | branch c b rest =>
      obtain ⟨r⟩ := branchCourse h.branches (blockReaches_of (reaches_block b)) (reaches_alternative rest)
      exact r.reaches h.ready.known
  | whileLoop c inv variant body =>
    obtain ⟨r⟩ := whileCourse h (blockReaches_of (reaches_block body))
    exact r.reaches h.ready h.typed.2.2.1
  | forRange i lo hi inv body =>
    obtain ⟨r⟩ := forCourse h (blockReaches_of (reaches_block body))
    exact r.reaches h.ready h.declareFaults
  | _ => exact reaches_simple trivial h

theorem reaches_alternative (bs : Branches) {e subject s s' g g'}
    (h : BranchesRun ctx R e bs subject s s' g g') : Reaches R e.scope.vars s s' g g' := by
  cases bs with
  | otherwise b =>
    have hblock : BlockRun ctx R e b s s' g g' := ⟨h.ready, h.typed, h.faultless, h.gives⟩
    exact (reaches_block b hblock).2.mono hblock.keeps
  | branch c b rest =>
    obtain ⟨r⟩ := branchCourse h (blockReaches_of (reaches_block b)) (reaches_alternative rest)
    exact (r.reaches h.ready.known).2

theorem reaches_block (cs : List Command) {e s s' g g'} (h : BlockRun ctx R e cs s s' g g') :
    s'.frame.Covers ctx.functions (Scoping.block e cs).1 ∧
      Reaches R (Scoping.block e cs).1.scope.vars s s' g g' := by
  cases cs with
  | nil =>
    obtain ⟨rfl, rfl⟩ := gives_pure h.gives
    exact ⟨h.ready.covers, .refl _, h.ready.known, h.ready.typed, fun _ hf => hf, adds_of_eq rfl⟩
  | cons c cs =>
    obtain ⟨frame, s₁, g₁, h1, h2⟩ := h.of_cons
    have hreach := (reaches_run c h1).2
    obtain ⟨hcov, hrest⟩ := reaches_block cs (h2 hreach)
    have hfirst : Reaches R (Scoping.command e c).1.scope.vars s { s₁ with frame } g g₁ :=
      ⟨hreach.grows, hreach.known, ⟨hreach.typed.values, hreach.typed.facts⟩, hreach.facts,
        hreach.adds⟩
    exact ⟨hcov, hfirst.trans hrest⟩

end

theorem block_reaches : BlockReaches ctx R e b := blockReaches_of (reaches_block b)

end Generation

end Verdict
