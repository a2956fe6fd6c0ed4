import Verdict.Proofs.Courses

/-! # Runs follow symbolic states

If all obligations are true, a run of a body that starts in a store that matches the symbolic state
before it ends, if it does, in a store that matches the state after it, and does not go wrong. A loop is
treated by the invariant of all its iterations: the store is well-typed, it agrees with the store on
entry on what the body leaves alone, and the loop invariant is true in it. -/

namespace Verdict

theorem Valuation.AgreeFor.trans {ρ₁ ρ₂ ρ₃ : Valuation} {vars vars' : NameMap Ty}
    (h : ρ₁.AgreeFor ρ₂ vars) (h' : ρ₂.AgreeFor ρ₃ vars')
    (hvars : ∀ x t, vars.get? x = some t → vars'.get? x = some t) : ρ₁.AgreeFor ρ₃ vars :=
  fun x t hx => (h x t hx).trans (h' x t (hvars x t hx))

theorem Valuation.Fits.insert_int {σ : Valuation} {vars : NameMap Ty} (h : σ.Fits vars) (i : String)
    (n : ℤ) : Valuation.Fits (Function.update σ i (.int n)) (vars.insert i .i32) := by
  intro x t hx
  rw [NameMap.get?_insert] at hx
  by_cases hxi : i = x
  · subst hxi
    rw [if_pos rfl] at hx
    obtain rfl := Option.some_inj.mp hx
    rw [Function.update_self]
    exact ⟨n, rfl⟩
  · rw [if_neg hxi] at hx
    rw [Function.update_of_ne (Ne.symm hxi)]
    exact h x t hx

namespace Generation

open GenM

variable {R : Rules} {ctx : GenContext} {vars vars' : NameMap Ty} {g g' g'' : Generator} {s s' s'' : SymState}
  {subject : Subject} {e : Scoping.Env} {M : Machine} {gF : Generator} {fuel : ℕ}
  {exec : Config → Ending Config} {ρ' σ'' : Valuation}

theorem Tracks.mono {vars'' : NameMap Ty} (h : Tracks R M vars vars' s s' g g' exec)
    (hvars : ∀ x t, vars''.get? x = some t → vars'.get? x = some t) :
    Tracks R M vars vars'' s s' g g' exec := by
  intro ρ k hm
  refine (h ρ k hm).mono ?_
  rintro k' ⟨ρ', hagree, hm'⟩
  exact ⟨ρ', hagree, hm'.mono hvars⟩

theorem Tracks.seq {vars'' : NameMap Ty} {exec' : Config → Ending Config}
    (h : Tracks R M vars vars' s s' g g' exec) (h' : Tracks R M vars' vars'' s' s'' g' g'' exec')
    (hg : g.Grows g') : Tracks R M vars vars'' s s'' g g'' fun k => exec k >>= exec' := by
  intro ρ k hm
  rw [Ending.ensures_bind]
  refine (h ρ k hm).mono ?_
  rintro k₁ ⟨ρ₁, hagree, hm₁⟩
  refine (h' ρ₁ k₁ hm₁).mono ?_
  rintro k₂ ⟨ρ₂, hagree', hm₂⟩
  exact ⟨ρ₂, hagree.trans hagree' hg.symbols, hm₂⟩

/-! ### Conditionals -/

theorem OtherwiseCourse.tracks {b : List Command} {o : Origin}
    (r : OtherwiseCourse R ctx e b s s' g g') (hs : s.Typed R e.scope.vars g)
    (hblock : Tracks R M e.scope.vars e.scope.vars s r.stop g r.g₁ (Command.execAll M fuel b)) :
    Tracks R M e.scope.vars e.scope.vars s s' g g' ((Command.cond (.otherwise b) o).exec M fuel) := by
  intro ρ k hm
  refine (hblock ρ k hm).mono ?_
  rintro k' ⟨ρ', hagree, hm'⟩
  exact ⟨ρ', hagree, r.copied hm'.fits (hm.agree hs hagree hm'.fits).facts hm'.agreeFor⟩

theorem BranchCourse.tracks {c : Formula} {b : List Command} {rest : Branches}
    (r : BranchCourse R ctx e subject c b rest s s' g g') (hF : Sound R M gF) (hgF : g'.Grows gF)
    (hthen : Tracks R M e.scope.vars e.scope.vars (r.before.assume r.cond) r.thenState r.g₁ r.g₂
      (Command.execAll M fuel b))
    (helse : Tracks R M e.scope.vars e.scope.vars (r.before.assume r.cond.negate) r.elseState r.g₂
      r.g₃ (rest.exec M fuel)) :
    Tracks R M e.scope.vars e.scope.vars s s' g g' ((Branches.branch c b rest).exec M fuel) := by
  intro ρ k hm
  have hgF3 := r.updates.grows.trans hgF
  have hgF2 := r.elseReaches.grows.trans hgF3
  have hgF1 := r.thenReaches.grows.trans hgF2
  have hbefore := r.conditions.typed
  simp only [Branches.exec, Ending.ensures_bind]
  refine Machine.ensures_truth fun hans => ?_
  obtain ⟨hdef, hm1⟩ := r.conditions.sound hF hgF1 hm hans
  have hmean := r.meaning hF.regular (hF.of_grows hgF1) hm
  -- The values after the conditional, once a branch has been run.
  have hfinish : ∀ (ρ' : Valuation) (k' : Config), ρ.AgreeFor ρ' r.g₁.symbols →
      ρ'.Fits r.g₃.symbols →
      (r.cond.Holds M.interp ρ' →
        (r.thenState.values.valuation M.interp ρ').AgreeFor k'.store e.scope.vars) →
      (¬ r.cond.Holds M.interp ρ' →
        (r.elseState.values.valuation M.interp ρ').AgreeFor k'.store e.scope.vars) →
      ∃ ρ', ρ.AgreeFor ρ' g.symbols ∧ s'.Matches M.interp e.scope.vars g' ρ' k'.store := by
    intro ρ' k' hagree hfits ht he
    have hm3 : r.before.Matches M.interp e.scope.vars r.g₃ ρ' k.store := hm1.agree hbefore hagree hfits
    exact ⟨ρ', fun x t hx => hagree x t (r.conditions.grows.symbols x t hx),
      r.merged (hF.of_grows hgF) hfits hm3.facts ht he⟩
  refine ⟨fun _ => hdef, fun taken htaken => ?_⟩
  have hcond : ∀ ρ', ρ.AgreeFor ρ' r.g₁.symbols →
      (r.cond.Holds M.interp ρ' ↔ c.Holds M.interp k.store) := fun ρ' hagree =>
    (Formula.Typed.holds_iff (Γ := r.g₁.scope R) r.condTyped hagree).symm.trans hmean
  by_cases hc : c.Holds M.interp k.store
  · rw [if_pos (htaken.mpr hc)]
    refine (hthen ρ k (hm1.assume (hmean.mpr hc))).mono ?_
    rintro k' ⟨ρ₂, hagree, hm2⟩
    -- The constants of the branch that is not taken may mean anything.
    have hextend := ρ₂.agreeFor_extend r.g₂.symbols r.g₃.symbols
    have hagree3 := hagree.trans hextend r.thenReaches.grows.symbols
    have hfits := hm2.fits.extend r.elseReaches.grows.symbols r.elseReaches.known
    have hm3 := hm2.agree r.thenReaches.typed hextend hfits
    exact hfinish _ k' hagree3 hfits (fun _ => hm3.agreeFor) fun hno =>
      absurd ((hcond _ hagree3).mpr hc) hno
  · rw [if_neg (htaken.not.mpr hc)]
    have hextend := ρ.agreeFor_extend r.g₁.symbols r.g₂.symbols
    have hfits := hm1.fits.extend r.thenReaches.grows.symbols r.thenReaches.known
    have hm2 := (hm1.assume ((Formula.holds_negate _).mpr (hmean.not.mpr hc))).agree
      (hbefore.assume r.condTyped.negate) hextend hfits
    refine (helse _ k hm2).mono ?_
    rintro k' ⟨ρ₃, hagree, hm3⟩
    have hagree3 := hextend.trans hagree r.thenReaches.grows.symbols
    exact hfinish ρ₃ k' hagree3 hm3.fits (fun hyes => absurd ((hcond _ hagree3).mp hyes) hc) fun _ =>
      hm3.agreeFor

/-! ### Loops with a condition -/

/-- What holds at every head of a loop that is entered in a store `σ`. -/
structure AtHead (M : Machine) (vars : NameMap Ty) (inv : Formula) (affected : Names)
    (σ σ' : Valuation) : Prop where
  fits : σ'.Fits vars
  frame : ∀ x t, vars.get? x = some t → x ∉ affected.members → σ' x = σ x
  invariant : M.Answers σ' (inv.visit Frame.outsideQuantifiers) →
    inv.Defined M.interp σ' ∧ inv.Holds M.interp σ'

/-- What decreases with every iteration of a loop with a variant. -/
noncomputable def measure (I : Interp) (variant : Option Expr) (σ : Valuation) : ℕ :=
  variant.elim 0 fun v => ((v.eval I σ).toInt + 1).toNat

section While

variable {c inv : Formula} {variant : Option Expr} {body : List Command} {ρ σ : Valuation}
  (r : WhileCourse R ctx e subject c inv variant body s s' g g') (hready : Ready ctx R e s g)
  (hvariant : ∀ v ∈ variant, v.Typed R.bounds (R.scope e) .i32)
  (hF : Sound R M gF) (hgF : g'.Grows gF)

omit hready in
/-- Everything that is generated in the course of a loop is part of the final generator. -/
theorem WhileCourse.grows (r : WhileCourse R ctx e subject c inv variant body s s' g g')
    (hvariant : ∀ v ∈ variant, v.Typed R.bounds (R.scope e) .i32) :
    r.g₁.Grows r.g₂ ∧ r.g₂.Grows r.g₃ ∧ r.g₃.Grows r.g₄ ∧ r.g₄.Grows r.g₆ ∧ r.g₆.Grows g' :=
  ⟨r.headReaches.grows, r.guardConditions.grows, (r.opens.evaluated r.testedReady hvariant).1.grows,
    r.bodyReaches.grows.trans r.preserved.grows,
    (r.closes.evaluated (r.stopReady.evaluated r.preserved.toEvaluated) hvariant).1⟩

include hvariant hF hgF

variable {σ' : Valuation}

/-- At a head, the condition is well-defined and means what the symbolic condition does. -/
theorem WhileCourse.matches_tested (hm : r.entry.Matches M.interp e.scope.vars r.g₁ ρ σ)
    (hk : AtHead M e.scope.vars inv (Command.affectedAll body) σ σ')
    (hans : M.Answers σ' (inv.visit Frame.outsideQuantifiers))
    (hansc : M.Answers σ' (c.visit Frame.outsideQuantifiers)) :
    ∃ ρ', ρ.AgreeFor ρ' r.g₁.symbols ∧ c.Defined M.interp σ' ∧
      r.tested.Matches M.interp e.scope.vars r.g₃ ρ' σ' ∧
      (r.guard.Holds M.interp ρ' ↔ c.Holds M.interp σ') := by
  obtain ⟨-, hg23, hg34, hg46, hg6⟩ := r.grows hvariant
  have hgF3 := ((hg34.trans hg46).trans hg6).trans hgF
  obtain ⟨ρ', hagree, hm2⟩ := r.headMatches hF (hg23.trans hgF3) hm hk.fits hk.frame hans
    (hk.invariant hans).2
  obtain ⟨hdef, hm3⟩ := r.guardConditions.sound hF hgF3 hm2 hansc
  exact ⟨ρ', hagree, hdef, hm3, r.guardMeaning hF.regular (hF.of_grows hgF3) hm2⟩

theorem WhileCourse.matches_start (hm : (r.tested.assume r.guard).Matches M.interp e.scope.vars r.g₃ ρ σ')
    (hans : M.Answers σ' (variantNodes variant)) : r.start.Matches M.interp e.scope.vars r.g₄ ρ σ' := by
  obtain ⟨-, -, -, hg46, hg6⟩ := r.grows hvariant
  exact (r.opens.evaluated r.testedReady hvariant).2 hF ((hg46.trans hg6).trans hgF) hm hans

/-- The body leads from a head to a head. -/
theorem WhileCourse.atHead_next {k' : Config}
    (hk : AtHead M e.scope.vars inv (Command.affectedAll body) σ σ')
    (hm : r.stop.Matches M.interp e.scope.vars r.g₅ ρ' k'.store)
    (hleaves : ∀ x, x ∉ (Command.affectedAll body).members → k'.store x = σ' x) :
    AtHead M e.scope.vars inv (Command.affectedAll body) σ k'.store := by
  obtain ⟨-, -, -, -, hg6⟩ := r.grows hvariant
  refine ⟨hm.store_fits r.stopReady.typed hF.regular, fun x t hx hmem => ?_, fun hans => ?_⟩
  · rw [hleaves x hmem, hk.frame x t hx hmem]
  · exact (r.preserved.sound hF (hg6.trans hgF) hm hans).1

/-- The variant is not negative before the body, and less after it. -/
theorem WhileCourse.measure_lt (hmode : ctx.modes.termination = .total)
    (hall : ∀ σ nodes, M.Answers σ nodes)
    (hm : (r.tested.assume r.guard).Matches M.interp e.scope.vars r.g₃ ρ σ')
    (hagree : ρ.AgreeFor ρ' r.g₄.symbols) (hm' : r.stop.Matches M.interp e.scope.vars r.g₅ ρ' σ'') :
    measure M.interp variant σ'' < measure M.interp variant σ' := by
  obtain ⟨-, -, -, hg46, hg6⟩ := r.grows hvariant
  obtain ⟨v, rfl, hbt, hbefore, hnonneg⟩ := r.opens.nonneg r.testedReady hvariant hmode hF
    ((hg46.trans hg6).trans hgF) hm (hall _ _)
  have hless := r.closes.decreases (r.stopReady.evaluated r.preserved.toEvaluated)
    (hvariant v rfl) (hbt.extend _ (hg46.extends R _)) hmode hF hgF
    (r.preserved.sound hF (hg6.trans hgF) hm' (hall _ _)).2 (hall _ _)
  rw [← Expr.Typed.eval_eq (Γ := r.g₄.scope R) hbt hagree, hbefore] at hless
  simp only [measure, Option.elim_some]
  omega

include hready

omit hF hgF in
/-- A loop that is left at a head leaves a store that matches the state after it. -/
theorem WhileCourse.matches_exit
    (hm : (r.tested.assume r.guard.negate).Matches M.interp e.scope.vars r.g₃ ρ σ') :
    ∃ ρ', ρ.AgreeFor ρ' r.g₃.symbols ∧ s'.Matches M.interp e.scope.vars g' ρ' σ' := by
  obtain ⟨-, -, hg34, hg46, hg6⟩ := r.grows hvariant
  have hknown := (r.reaches hready hvariant).2.known
  have hextend := ρ.agreeFor_extend r.g₃.symbols g'.symbols
  have hexit := hm.agree (r.guardConditions.typed.assume r.guardTyped.negate) hextend
    (hm.fits.extend ((hg34.trans hg46).trans hg6).symbols hknown)
  rw [← r.result] at hexit
  exact ⟨_, hextend, hexit⟩

/-- From a head, either the body is run and leads to a head again, or the loop is left. -/
theorem WhileCourse.ensures_step
    (hbody : Tracks R M e.scope.vars e.scope.vars r.start r.stop r.g₄ r.g₅
      (Command.execAll M fuel body))
    (hm : r.entry.Matches M.interp e.scope.vars r.g₁ ρ σ) {k : Config}
    (hk : AtHead M e.scope.vars inv (Command.affectedAll body) σ k.store) :
    (M.whileStep c inv variant (Command.execAll M fuel body) k).Ensures R.unitLiterals
      (Sum.elim
        (fun k' => AtHead M e.scope.vars inv (Command.affectedAll body) σ k'.store ∧
          (ctx.modes.termination = .total → (∀ σ nodes, M.Answers σ nodes) →
            measure M.interp variant k'.store < measure M.interp variant k.store))
        fun k' => ∃ ρ', ρ.AgreeFor ρ' g.symbols ∧
          s'.Matches M.interp e.scope.vars g' ρ' k'.store) := by
  unfold Machine.whileStep
  rw [Ending.ensures_bind]
  refine Machine.ensures_check fun hans => ⟨hk.invariant hans, ?_⟩
  rw [Ending.ensures_bind]
  refine Machine.ensures_truth fun hansc => ?_
  obtain ⟨ρ', hagree, hdef, hm3, hmean⟩ := r.matches_tested hvariant hF hgF hm hk hans hansc
  refine ⟨fun _ => hdef, fun goesOn hgoesOn => ?_⟩
  by_cases hc : c.Holds M.interp k.store
  · rw [if_pos (hgoesOn.mpr hc), Ending.ensures_bind]
    refine Machine.ensures_await fun hansv => ?_
    have hm3' := hm3.assume (hmean.mpr hc)
    have hm4 := r.matches_start hvariant hF hgF hm3' hansv
    rw [Ending.ensures_bind]
    refine ((hbody ρ' k hm4).and (Command.execAll_leaves body k)).mono ?_
    rintro k' ⟨⟨ρ'', hagree', hm5⟩, hleaves⟩
    exact ⟨r.atHead_next hvariant hF hgF hk hm5 hleaves, fun hmode hall =>
      r.measure_lt hvariant hF hgF hmode hall hm3' hagree' hm5⟩
  · rw [if_neg (hgoesOn.not.mpr hc)]
    obtain ⟨hg12, hg23, -⟩ := r.grows hvariant
    obtain ⟨ρ'', hagree', hexit⟩ := r.matches_exit hready hvariant
      (hm3.assume ((Formula.holds_negate _).mpr (hmean.not.mpr hc)))
    refine ⟨ρ'', ?_, hexit⟩
    exact fun x t hx => (hagree.trans hagree' (hg12.trans hg23).symbols) x t
      (r.entryCheck.grows.symbols x t hx)

theorem WhileCourse.atHead_entry (hm : s.Matches M.interp e.scope.vars g ρ σ)
    (hans : M.Answers σ (inv.visit Frame.outsideQuantifiers)) :
    r.entry.Matches M.interp e.scope.vars r.g₁ ρ σ ∧
      AtHead M e.scope.vars inv (Command.affectedAll body) σ σ := by
  obtain ⟨hg12, hg23, hg34, hg46, hg6⟩ := r.grows hvariant
  obtain ⟨hinv, hm1⟩ := r.entryCheck.sound hF
    (((((hg12.trans hg23).trans hg34).trans hg46).trans hg6).trans hgF) hm hans
  exact ⟨hm1, hm.store_fits hready.typed hF.regular, fun _ _ _ _ => rfl, fun _ => hinv⟩

theorem WhileCourse.tracks {o : Origin}
    (hbody : Tracks R M e.scope.vars e.scope.vars r.start r.stop r.g₄ r.g₅
      (Command.execAll M fuel body)) :
    Tracks R M e.scope.vars e.scope.vars s s' g g'
      ((Command.whileLoop c inv variant body o).exec M fuel) := by
  intro ρ k hm
  simp only [Command.exec]
  by_cases hans : M.Answers k.store (inv.visit Frame.outsideQuantifiers)
  · obtain ⟨hm1, hhead⟩ := r.atHead_entry hready hvariant hF hgF hm hans
    refine ensures_iterate (J := fun k' => AtHead M e.scope.vars inv (Command.affectedAll body)
      k.store k'.store) (fun k' hk' => ?_) fuel k hhead
    refine (r.ensures_step hready hvariant hF hgF hbody hm1 hk').mono ?_
    rintro (k'' | k'') h
    · exact h.1
    · exact h
  · rw [iterate_of_unfinished]
    · trivial
    · unfold Machine.whileStep
      rw [Machine.check_of_not_answers hans]
      rfl

end While

/-! ### Loops over a range -/

section For

variable {i : String} {lo hi : Value} {inv : Formula} {body : List Command} {o : Origin}
  {ρ σ : Valuation} (r : ForCourse R ctx e subject i lo hi inv body s s' g g')
  (hready : Ready ctx R e s g) (hd : Scoping.declareFaults e o i .i32 = [])
  (hbodyFaults : (Scoping.block (Scoping.declare e i .i32 false) body).2 = [])
  (hF : Sound R M gF) (hgF : g'.Grows gF)

/-- What holds at every head of a loop over a range, before iteration `n`. -/
abbrev AtRangeHead (M : Machine) (vars : NameMap Ty) (i : String) (inv : Formula) (affected : Names)
    (σ : Valuation) (n : ℤ) (σ' : Valuation) : Prop :=
  AtHead M (vars.insert i .i32) inv (affected.insert i) σ (Function.update σ' i (.int n))

include hF hgF

variable {n : ℤ} {σ' : Valuation}

/-- At a head, the symbolic condition says whether the range is not used up. -/
theorem ForCourse.matches_head (hm : r.entry.Matches M.interp (e.scope.vars.insert i .i32) r.g₃ ρ σ)
    (hk : AtRangeHead M e.scope.vars i inv (Command.affectedAll body) σ n σ')
    (hans : M.Answers (Function.update σ' i (.int n)) (inv.visit Frame.outsideQuantifiers)) :
    ∃ ρ', ρ.AgreeFor ρ' r.g₃.symbols ∧
      r.head.Matches M.interp (e.scope.vars.insert i .i32) r.g₄ ρ' (Function.update σ' i (.int n)) ∧
      ((rangeGuard i r.head r.bound).Holds M.interp ρ' ↔ n < (r.bound.eval M.interp ρ).toInt) := by
  obtain ⟨ρ', hagree, hm4⟩ := r.headMatches hF (r.grows_head.trans hgF) hm hk.fits hk.frame hans
    (hk.invariant hans).2
  refine ⟨ρ', hagree, hm4, ?_⟩
  have hvalue : (r.head.valueOf i).eval M.interp ρ' = .int n := by
    obtain ⟨w, hw, -⟩ := r.headReaches.typed.values i .i32 (by simp)
    have hval := hm4.values i .i32 (by simp)
    rw [Function.update_self, valuation_of_get? hw] at hval
    simpa [SymState.valueOf, hw] using hval
  have hbound : r.bound.eval M.interp ρ' = r.bound.eval M.interp ρ :=
    (Value.Typed.eval_eq (Γ := r.g₂.scope R) r.boundTyped fun x t hx =>
      hagree x t (r.entryCheck.grows.symbols x t hx)).symm
  have hint := Value.Typed.eval_int (Γ := r.g₂.scope R) r.boundTyped hF.regular fun x t hx =>
    hm.fits x t (r.entryCheck.grows.symbols x t hx)
  rw [rangeGuard, Formula.Holds, Value.eval_toExpr, Value.eval_toExpr, hvalue, hbound, hint]
  simp [Comparison.Holds, Val.Lt, Val.toInt]

theorem ForCourse.atHead_entry (hm : r.s₂.Matches M.interp e.scope.vars r.g₂ ρ σ)
    (hfirst : r.first.eval M.interp ρ = .int n)
    (hans : M.Answers (Function.update σ i (.int n)) (inv.visit Frame.outsideQuantifiers)) :
    r.entry.Matches M.interp (e.scope.vars.insert i .i32) r.g₃ ρ (Function.update σ i (.int n)) ∧
      AtRangeHead M e.scope.vars i inv (Command.affectedAll body) (Function.update σ i (.int n)) n
        σ := by
  have hgF3 := r.headReaches.grows.trans (r.grows_head.trans hgF)
  have hset := hm.set (v := r.first) (NameMap.adjoins_insert e.scope.vars i .i32)
  rw [hfirst] at hset
  obtain ⟨hinv, hm3⟩ := r.entryCheck.sound hF hgF3 ⟨hset.fits, hset.values, hset.facts⟩ hans
  exact ⟨hm3, (hm.store_fits r.hiConditions.typed hF.regular).insert_int i n, fun _ _ _ _ => rfl,
    fun _ => hinv⟩

theorem ForCourse.matches_first (hm : s.Matches M.interp e.scope.vars g ρ σ)
    (hans : M.Answers σ (lo.visit Frame.outsideQuantifiers)) :
    lo.Defined M.interp σ ∧ r.s₁.Matches M.interp e.scope.vars r.g₁ ρ σ ∧
      r.first.eval M.interp ρ = .int (lo.eval M.interp σ).toInt := by
  have hgF1 := ((r.hiConditions.grows.trans r.entryCheck.grows).trans r.headReaches.grows).trans
    (r.grows_head.trans hgF)
  obtain ⟨hdef, hm1⟩ := r.loConditions.sound hF hgF1 hm hans
  have hfirst := r.firstMeaning hF.regular (hF.of_grows hgF1) hm
  have hint := Value.Typed.eval_int (Γ := r.g₁.scope R) r.firstTyped hF.regular hm1.fits
  rw [hfirst] at hint
  exact ⟨hdef.resolve_left (by simp), hm1, hfirst.trans hint⟩

theorem ForCourse.matches_bound (hm : r.s₁.Matches M.interp e.scope.vars r.g₁ ρ σ)
    (hans : M.Answers σ (hi.visit Frame.outsideQuantifiers)) :
    hi.Defined M.interp σ ∧ r.s₂.Matches M.interp e.scope.vars r.g₂ ρ σ ∧
      r.bound.eval M.interp ρ = hi.eval M.interp σ := by
  have hgF2 := (r.entryCheck.grows.trans r.headReaches.grows).trans (r.grows_head.trans hgF)
  obtain ⟨hdef, hm2⟩ := r.hiConditions.sound hF hgF2 hm hans
  exact ⟨hdef.resolve_left (by simp), hm2, r.boundMeaning hF.regular (hF.of_grows hgF2) hm⟩

omit hF hgF in
include hbodyFaults in
/-- The body leaves the iterator alone. -/
theorem ForCourse.matches_next (hn : σ' i = .int n)
    (hm : r.stop.Matches M.interp (rangeVars e i) r.g₅ ρ' σ'')
    (hleaves : ∀ x, x ∉ (Command.affectedAll body).members → σ'' x = σ' x) :
    (r.stop.set i r.next).Matches M.interp (rangeVars e i) r.g₇ ρ'
      (Function.update σ'' i (.int (n + 1))) := by
  refine r.nextMatches n (fun hi => ?_) hm
  have hfixed : (Scoping.declare e i .i32 false).Fixed i := by
    refine ⟨hi, ⟨.i32, false⟩, ?_, .inl rfl⟩
    rw [Scoping.declare, if_neg hi, Scoping.Env.get?_add, if_pos rfl]
  rw [hleaves i (hfixed.not_affectedAll body hbodyFaults), hn]

include hd hbodyFaults in
/-- The body leads from a head to a head. -/
theorem ForCourse.atHead_next
    (hk : AtRangeHead M e.scope.vars i inv (Command.affectedAll body) σ n σ')
    (hm : r.stop.Matches M.interp (rangeVars e i) r.g₅ ρ' σ'')
    (hleaves : ∀ x, x ∉ (Command.affectedAll body).members → σ'' x = Function.update σ' i (.int n) x) :
    AtRangeHead M e.scope.vars i inv (Command.affectedAll body) σ (n + 1) σ'' := by
  have hnext := r.matches_next hbodyFaults (Function.update_self i (.int n) σ') hm hleaves
  have hfits : σ''.Fits e.scope.vars := fun x t hx =>
    hm.store_fits r.bodyReaches.typed hF.regular x t ((Scoping.declare_extends false hd).type? hx)
  refine ⟨hfits.insert_int i _, fun x t hx hmem => ?_, fun hans => ?_⟩
  · have hxi : x ≠ i := fun h => hmem (by simp [h])
    rw [Function.update_of_ne hxi, hleaves x fun h => hmem (by simp [h]), hk.frame x t hx hmem]
  · exact (r.preserved.sound hF hgF hnext hans).1

include hready hd

omit hF hgF in
/-- A loop that is left at a head leaves a store that matches the state after it. -/
theorem ForCourse.matches_exit
    (hm : (r.head.assume (rangeGuard i r.head r.bound).negate).Matches M.interp
      (e.scope.vars.insert i .i32) r.g₄ ρ σ') :
    ∃ ρ', ρ.AgreeFor ρ' r.g₄.symbols ∧ s'.Matches M.interp e.scope.vars g' ρ' σ' := by
  have hknown := (r.reaches hready hd).2.known
  have hextend := ρ.agreeFor_extend r.g₄.symbols g'.symbols
  have hexit := hm.agree (r.headReaches.typed.assume r.guardTyped.negate) hextend
    (hm.fits.extend r.grows_head.symbols hknown)
  have hleft : SymState.Matches M.interp e.scope.vars g'
      { (r.head.assume (rangeGuard i r.head r.bound).negate).forget i with frame := r.s₂.frame }
      (ρ.extend r.g₄.symbols g'.symbols) σ' := by
    refine ⟨hexit.fits, fun x t hx => ?_, hexit.facts⟩
    have hne : i ≠ x := by
      rintro rfl
      rw [get?_iterator hready.covers.wildcard hd] at hx
      cases hx
    rw [← hexit.values x t (by rw [NameMap.get?_insert, if_neg hne, hx])]
    simp [SymState.forget, Substitution.valuation, Substitution.image, hne]
  rw [← r.result] at hleft
  exact ⟨_, hextend, hleft⟩

variable (hbody : Tracks R M (rangeVars e i) (rangeVars e i) (r.head.assume (rangeGuard i r.head r.bound))
  r.stop r.g₄ r.g₅ (Command.execAll M fuel body))
include hbodyFaults hbody

/-- From a head, either the body is run and leads to a head again, or the loop is left. -/
theorem ForCourse.ensures_step (hm : r.entry.Matches M.interp (e.scope.vars.insert i .i32) r.g₃ ρ σ)
    {k : Config} (hk : AtRangeHead M e.scope.vars i inv (Command.affectedAll body) σ n k.store) :
    (M.forStep i (r.bound.eval M.interp ρ).toInt inv (Command.execAll M fuel body)
      (n, k)).Ensures R.unitLiterals
      (Sum.elim
        (fun nk => (n < (r.bound.eval M.interp ρ).toInt ∧ nk.1 = n + 1) ∧
          AtRangeHead M e.scope.vars i inv (Command.affectedAll body) σ nk.1 nk.2.store)
        fun k' => ∃ ρ', ρ.AgreeFor ρ' r.g₃.symbols ∧
          s'.Matches M.interp e.scope.vars g' ρ' k'.store) := by
  unfold Machine.forStep
  rw [Ending.ensures_bind]
  refine Machine.ensures_check fun hans => ⟨hk.invariant hans, ?_⟩
  obtain ⟨ρ', hagree, hm4, hmean⟩ := r.matches_head hF hgF hm hk hans
  by_cases hn : n < (r.bound.eval M.interp ρ).toInt
  · rw [if_pos hn, Ending.ensures_bind]
    have hm4' := (hm4.assume (hmean.mpr hn)).mono (vars_declare_sub hready.covers.wildcard i)
    refine ((hbody ρ' ⟨_, k.choices⟩ hm4').and (Command.execAll_leaves body _)).mono ?_
    rintro k' ⟨⟨ρ'', -, hm5⟩, hleaves⟩
    exact ⟨⟨hn, rfl⟩, r.atHead_next hd hbodyFaults hF hgF hk hm5 hleaves⟩
  · rw [if_neg hn]
    obtain ⟨ρ'', hagree', hexit⟩ := r.matches_exit hready hd
      (hm4.assume ((Formula.holds_negate _).mpr (hmean.not.mpr hn)))
    exact ⟨ρ'', hagree.trans hagree' r.headReaches.grows.symbols, hexit⟩

theorem ForCourse.tracks : Tracks R M e.scope.vars e.scope.vars s s' g g'
    ((Command.forRange i lo hi inv body o).exec M fuel) := by
  intro ρ k hm
  simp only [Command.exec, Ending.ensures_bind]
  refine Machine.ensures_evaluate fun hansLo => ?_
  obtain ⟨hdefLo, hm1, hfirst⟩ := r.matches_first hF hgF hm hansLo
  refine ⟨fun _ => hdefLo, Machine.ensures_evaluate fun hansHi => ?_⟩
  obtain ⟨hdefHi, hm2, hbound⟩ := r.matches_bound hF hgF hm1 hansHi
  refine ⟨fun _ => hdefHi, ?_⟩
  have hgrow : g.Grows r.g₃ :=
    (r.loConditions.grows.trans r.hiConditions.grows).trans r.entryCheck.grows
  by_cases hans : M.Answers (Function.update k.store i (.int (lo.eval M.interp k.store).toInt))
      (inv.visit Frame.outsideQuantifiers)
  · obtain ⟨hm3, hhead⟩ := r.atHead_entry hF hgF hm2 hfirst hans
    rw [← hbound]
    refine ensures_iterate (J := fun nk => AtRangeHead M e.scope.vars i inv
      (Command.affectedAll body) _ nk.1 nk.2.store) (fun nk hk => ?_) fuel _ hhead
    refine (r.ensures_step hready hd hbodyFaults hF hgF hbody hm3 hk).mono ?_
    rintro (nk' | k') h
    · exact h.2
    · obtain ⟨ρ', hagree, hexit⟩ := h
      exact ⟨ρ', fun x t hx => hagree x t (hgrow.symbols x t hx), hexit⟩
  · rw [iterate_of_unfinished]
    · trivial
    · unfold Machine.forStep
      dsimp only
      rw [Machine.check_of_not_answers hans]
      rfl

end For

/-! ### Blocks -/

theorem tracks_simple {c : Command} {frame : Frame} (hc : c.IsSimple)
    (h : CommandRun ctx R e c frame s s' g g') (hF : Sound R M gF) (hgF : g'.Grows gF) :
    Tracks R M e.scope.vars (Scoping.command e c).1.scope.vars s s' g g' (c.exec M fuel) :=
  (h.simulates fuel hc).2.2.tracks hF hgF

mutual

/-- Runs of a command follow its symbolic states. -/
theorem tracks_run (hF : Sound R M gF) (c : Command) {e frame s s' g g'}
    (h : CommandRun ctx R e c frame s s' g g') (hgF : g'.Grows gF) :
    Tracks R M e.scope.vars (Scoping.command e c).1.scope.vars s s' g g' (c.exec M fuel) := by
  cases c with
  | cond bs =>
    cases bs with
    | otherwise b =>
      obtain ⟨r⟩ := otherwiseCourse h block_reaches
      have hb : BlockRun ctx R e b s r.stop g r.g₁ := ⟨h.ready, h.typed, h.faultless, r.blockRun⟩
      exact r.tracks h.ready.typed ((tracks_block hF b hb (r.updates.grows.trans hgF)).mono hb.keeps)
    | branch c b rest =>
      have hbs := tracks_alternative hF (.branch c b rest) h.branches hgF
      intro ρ k hm
      simpa only [Command.exec, Scoping.command] using hbs ρ k hm
  | whileLoop c inv variant body =>
    obtain ⟨r⟩ := whileCourse h block_reaches
    have hb := h.whileBody r
    obtain ⟨-, -, -, -, hg6⟩ := r.grows h.typed.2.2.1
    have hbody := tracks_block hF body hb ((r.preserved.grows.trans hg6).trans hgF)
    exact r.tracks h.ready h.typed.2.2.1 hF hgF (hbody.mono hb.keeps)
  | forRange i lo hi inv body =>
    obtain ⟨r⟩ := forCourse h block_reaches
    have hb := h.forBody r
    have hbody := tracks_block hF body hb ((r.nextUpdates.grows.trans r.preserved.grows).trans hgF)
    exact r.tracks h.ready h.declareFaults hb.faultless hF hgF (hbody.mono hb.keeps)
  | _ => exact tracks_simple trivial h hF hgF

theorem tracks_alternative (hF : Sound R M gF) (bs : Branches) {e subject s s' g g'}
    (h : BranchesRun ctx R e bs subject s s' g g') (hgF : g'.Grows gF) :
    Tracks R M e.scope.vars e.scope.vars s s' g g' (bs.exec M fuel) := by
  cases bs with
  | otherwise b =>
    have hb : BlockRun ctx R e b s s' g g' := ⟨h.ready, h.typed, h.faultless, h.gives⟩
    have hblock := (tracks_block hF b hb hgF).mono hb.keeps
    intro ρ k hm
    simpa only [Branches.exec] using hblock ρ k hm
  | branch c b rest =>
    obtain ⟨r⟩ := branchCourse h block_reaches (reaches_alternative rest)
    have hgF3 := r.updates.grows.trans hgF
    have hthen := tracks_block hF b (h.first r) (r.elseReaches.grows.trans hgF3)
    have helse := tracks_alternative hF rest (h.others r) hgF3
    exact r.tracks hF hgF (hthen.mono (h.first r).keeps) helse

theorem tracks_block (hF : Sound R M gF) (cs : List Command) {e s s' g g'} (h : BlockRun ctx R e cs s s' g g')
    (hgF : g'.Grows gF) :
    Tracks R M e.scope.vars (Scoping.block e cs).1.scope.vars s s' g g' (Command.execAll M fuel cs) := by
  cases cs with
  | nil =>
    obtain ⟨rfl, rfl⟩ := gives_pure h.gives
    intro ρ k hm
    exact ⟨ρ, fun _ _ _ => rfl, hm⟩
  | cons c cs =>
    obtain ⟨frame, s₁, g₁, h1, h2⟩ := h.of_cons
    have hreach := (reaches_run c h1).2
    have hrest := (reaches_block cs (h2 hreach)).2
    have hfirst := tracks_run hF c h1 (hrest.grows.trans hgF)
    have hnext : Tracks R M e.scope.vars (Scoping.command e c).1.scope.vars s { s₁ with frame } g g₁
        (c.exec M fuel) := by
      intro ρ k hm
      refine (hfirst ρ k hm).mono ?_
      rintro k' ⟨ρ', hagree, hm'⟩
      exact ⟨ρ', hagree, hm'.fits, hm'.values, hm'.facts⟩
    have hseq := hnext.seq (tracks_block hF cs (h2 hreach) hgF) hreach.grows
    intro ρ k hm
    simpa only [Command.execAll, Scoping.block] using hseq ρ k hm

end

end Generation

end Verdict
