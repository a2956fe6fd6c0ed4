import Verdict.Proofs.Soundness

/-! # Termination

If loops have to end and all obligations of a function without calls are true, every run of it halts:
with enough fuel it is done or stops at a false assumption (`Function.execute_halts`).

The recursion is that of the commands. A part of a body ends from every store that matches its symbolic
state (`Ends`), and where it does, the next state is matched, since runs follow symbolic states. A loop
ends because the variant, or what is left of the range, decreases from head to head. -/

namespace Verdict

/-! ### Steps without loops -/

section

variable {α β : Type} {m : Ending α}

theorem Ending.bind_ne_unfinished {f : α → Ending β} (hm : m ≠ .unfinished)
    (hf : ∀ a, f a ≠ .unfinished) : (m >>= f) ≠ .unfinished := by
  cases m with
  | done a => exact hf a
  | unfinished => exact absurd rfl hm
  | _ => simp

theorem Ending.Ensures.safe {safe : Prop} {P : α → Prop} (h : m.Ensures safe P) (hs : safe) :
    m.Ensures True P := by
  cases m with
  | wrong v => exact absurd hs h
  | _ => exact h

/-- A run that starts with a step that needs no fuel halts if the rest does. -/
theorem Halts.after {f : ℕ → α → Ending β} {Q : β → Prop} (hm : m ≠ .unfinished)
    (h : m.Ensures True fun a => Halts (fun n => f n a) Q) : Halts (fun n => m >>= f n) Q := by
  cases m with
  | done a => exact h
  | blocked => exact .blocked
  | wrong v => exact absurd trivial h
  | unfinished => exact absurd rfl hm

end

namespace Machine

variable (I : Interp) (σ : Valuation)

theorem evaluate_ne_unfinished {α : Type} (nodes : List Node) (defined : Prop) (a : α) :
    (ofInterp I).evaluate σ nodes defined a ≠ .unfinished := by
  have hans : (ofInterp I).Answers σ nodes := fun _ _ => trivial
  unfold evaluate
  rw [if_pos hans]
  split_ifs <;> simp

theorem truth_ne_unfinished (f : Formula) : (ofInterp I).truth σ f ≠ .unfinished :=
  evaluate_ne_unfinished I σ _ _ _

theorem assume_ne_unfinished (f : Formula) : (ofInterp I).assume σ f ≠ .unfinished :=
  Ending.bind_ne_unfinished (truth_ne_unfinished I σ f) fun b => by cases b <;> simp

theorem check_ne_unfinished (violation : Violation) (f : Formula) :
    (ofInterp I).check σ violation f ≠ .unfinished :=
  Ending.bind_ne_unfinished (truth_ne_unfinished I σ f) fun b => by cases b <;> simp

theorem await_ne_unfinished (nodes : List Node) : (ofInterp I).await σ nodes ≠ .unfinished := by
  have hans : (ofInterp I).Answers σ nodes := fun _ _ => trivial
  simp [await, hans]

theorem index_ne_unfinished (p : Place) : (ofInterp I).index σ p ≠ .unfinished := by
  cases p with
  | elem shape x i o =>
    exact Ending.bind_ne_unfinished (evaluate_ne_unfinished I σ _ _ _) fun _ => by simp
  | _ => simp [index]

theorem writes_ne_unfinished (as : List Assignment) : (ofInterp I).writes σ as ≠ .unfinished := by
  induction as with
  | nil => simp [writes]
  | cons a as ih =>
    refine Ending.bind_ne_unfinished (evaluate_ne_unfinished I σ _ _ _) fun v => ?_
    refine Ending.bind_ne_unfinished (index_ne_unfinished I σ a.target) fun i => ?_
    exact Ending.bind_ne_unfinished ih fun ws => by simp

theorem assign_ne_unfinished (k : Config) (as : List Assignment) :
    (ofInterp I).assign k as ≠ .unfinished :=
  Ending.bind_ne_unfinished (writes_ne_unfinished I k.store as) fun ws => by simp

end Machine

/-- A command without blocks needs no fuel. -/
theorem Command.IsSimple.halts {c : Command} (hc : c.IsSimple) {I : Interp} {k : Config}
    (h : (c.exec (.ofInterp I) 0 k).Ensures True fun _ => True) :
    Halts (fun n => c.exec (.ofInterp I) n k) fun _ => True := by
  have hfuel : ∀ n, c.exec (.ofInterp I) n k = c.exec (.ofInterp I) 0 k := by
    intro n
    cases c with
    | cond | forRange | whileLoop => exact hc.elim
    | _ => simp only [exec]
  have hne : c.exec (.ofInterp I) 0 k ≠ .unfinished := by
    cases c with
    | cond | forRange | whileLoop => exact hc.elim
    | declare d => simp [exec]
    | bind d v | bindTuple ds v o =>
      exact Ending.bind_ne_unfinished (Machine.evaluate_ne_unfinished I _ _ _ _) fun w => by simp
    | assign a | assignAll as o =>
      exact Machine.assign_ne_unfinished I k _
    | assert f o | invariant f o =>
      exact Ending.bind_ne_unfinished (Machine.check_ne_unfinished I _ _ _) fun _ => by simp
    | assume f o =>
      exact Ending.bind_ne_unfinished (Machine.assume_ne_unfinished I _ _) fun _ => by simp
    | noop o => simp [exec]
  simp only [hfuel]
  cases hrun : c.exec (.ofInterp I) 0 k with
  | done a => exact .done trivial
  | blocked => exact .blocked
  | wrong v => rw [hrun] at h; exact absurd trivial h
  | unfinished => exact absurd hrun hne

namespace Generation

open GenM

variable {R : Rules} {ctx : GenContext} {vars vars' : NameMap Ty} {g g' : Generator}
  {s s' : SymState} {subject : Subject} {e : Scoping.Env} {I : Interp} {gF : Generator}

/-- Whether runs from stores that match a state halt. -/
def Ends (I : Interp) (vars : NameMap Ty) (s : SymState) (g : Generator)
    (exec : ℕ → Config → Ending Config) : Prop :=
  ∀ (ρ : Valuation) (k : Config), s.Matches I vars g ρ k.store → Halts (fun n => exec n k) fun _ => True

/-- Runs that halt and follow symbolic states halt in stores that match the last state. -/
theorem Ends.tracks {exec : ℕ → Config → Ending Config} (h : Ends I vars s g exec)
    (htracks : ∀ fuel, Tracks R (.ofInterp I) vars vars' s s' g g' (exec fuel))
    (hunit : R.unitLiterals) {ρ : Valuation} {k : Config} (hm : s.Matches I vars g ρ k.store) :
    Halts (fun n => exec n k) fun k' =>
      ∃ ρ', ρ.AgreeFor ρ' g.symbols ∧ s'.Matches I vars' g' ρ' k'.store :=
  ((h ρ k hm).and_ensures fun n => (htracks n ρ k hm).safe hunit).mono fun _ => And.right

/-! ### Conditionals -/

theorem BranchCourse.ends {c b rest} (r : BranchCourse R ctx e subject c b rest s s' g g')
    (hF : Sound R (.ofInterp I) gF) (hgF : g'.Grows gF)
    (hthen : Ends I e.scope.vars (r.before.assume r.cond) r.g₁
      fun n => Command.execAll (.ofInterp I) n b)
    (helse : Ends I e.scope.vars (r.before.assume r.cond.negate) r.g₂
      fun n => rest.exec (.ofInterp I) n) :
    Ends I e.scope.vars s g fun n => (Branches.branch c b rest).exec (.ofInterp I) n := by
  intro ρ k hm
  have hgF1 := r.thenReaches.grows.trans (r.elseReaches.grows.trans (r.updates.grows.trans hgF))
  have hmean := r.meaning hF.regular (hF.of_grows hgF1) hm
  refine .after (Machine.truth_ne_unfinished I k.store c) (Machine.ensures_truth fun hans => ?_)
  obtain ⟨hdef, hm1⟩ := r.conditions.sound hF hgF1 hm hans
  refine ⟨fun _ => hdef, fun taken htaken => ?_⟩
  by_cases hc : c.Holds I k.store
  · simp only [htaken.mpr hc, if_true]
    exact hthen ρ k (hm1.assume (hmean.mpr hc))
  · simp only [htaken.not.mpr hc]
    -- The constants of the branch that is not taken may mean anything.
    exact helse _ k ((hm1.assume ((Formula.holds_negate _).mpr (hmean.not.mpr hc))).agree
      (r.conditions.typed.assume r.condTyped.negate) (ρ.agreeFor_extend r.g₁.symbols r.g₂.symbols)
      (hm1.fits.extend r.thenReaches.grows.symbols r.thenReaches.known))

/-! ### Loops -/

theorem WhileCourse.ends {o : Origin} {c inv variant body}
    (r : WhileCourse R ctx e subject c inv variant body s s' g g') (hready : Ready ctx R e s g)
    (hvariant : ∀ v ∈ variant, v.Typed R.bounds (R.scope e) .i32) (hF : Sound R (.ofInterp I) gF)
    (hgF : g'.Grows gF) (hunit : R.unitLiterals) (hmode : ctx.modes.termination = .total)
    (hbody : Ends I e.scope.vars r.start r.g₄ fun n => Command.execAll (.ofInterp I) n body)
    (htracks : ∀ fuel, Tracks R (.ofInterp I) e.scope.vars e.scope.vars r.start r.stop r.g₄ r.g₅
      (Command.execAll (.ofInterp I) fuel body)) :
    Ends I e.scope.vars s g
      fun n => (Command.whileLoop c inv variant body o).exec (.ofInterp I) n := by
  intro ρ k hm
  have hall : ∀ σ nodes, (Machine.ofInterp I).Answers σ nodes := fun _ _ _ _ => trivial
  obtain ⟨hm1, hhead⟩ := r.atHead_entry hready hvariant hF hgF hm (hall _ _)
  have hsteps : ∀ k' : Config,
      AtHead (.ofInterp I) e.scope.vars inv (Command.affectedAll body) k.store k'.store →
        Halts (fun n => (Machine.ofInterp I).whileStep c inv variant
          (Command.execAll (.ofInterp I) n body) k') fun _ => True := by
    intro k' hk'
    refine .after (Machine.check_ne_unfinished I _ _ _)
      (Machine.ensures_check fun hans => ⟨hk'.invariant hans, ?_⟩)
    refine .after (Machine.truth_ne_unfinished I _ _) (Machine.ensures_truth fun hansc => ?_)
    obtain ⟨ρ', -, hdef, hm3, hmean⟩ := r.matches_tested hvariant hF hgF hm1 hk' hans hansc
    refine ⟨fun _ => hdef, fun goesOn hgoesOn => ?_⟩
    by_cases hc : c.Holds I k'.store
    · simp only [hgoesOn.mpr hc, if_true]
      refine .after (Machine.await_ne_unfinished I _ _) (Machine.ensures_await fun hansv => ?_)
      have hm4 := r.matches_start hvariant hF hgF (hm3.assume (hmean.mpr hc)) hansv
      exact (hbody ρ' k' hm4).bind fun _ _ => .done trivial
    · simp only [hgoesOn.not.mpr hc]
      exact .done trivial
  refine Halts.iterate (fun k' => measure I variant k'.store) (J := fun k' =>
    AtHead (.ofInterp I) e.scope.vars inv (Command.affectedAll body) k.store k'.store)
    (fun k' hk' => ?_) k hhead
  refine ((hsteps k' hk').and_ensures fun fuel =>
    (r.ensures_step hready hvariant hF hgF (htracks fuel) hm1 hk').safe hunit).mono ?_
  rintro (k'' | k'') ⟨-, h⟩
  · exact ⟨h.1, h.2 hmode hall⟩
  · trivial

theorem ForCourse.ends {o : Origin} {i lo hi inv body}
    (r : ForCourse R ctx e subject i lo hi inv body s s' g g') (hready : Ready ctx R e s g)
    (hd : Scoping.declareFaults e o i .i32 = [])
    (hbodyFaults : (Scoping.block (Scoping.declare e i .i32 false) body).2 = [])
    (hF : Sound R (.ofInterp I) gF) (hgF : g'.Grows gF) (hunit : R.unitLiterals)
    (hbody : Ends I (rangeVars e i) (r.head.assume (rangeGuard i r.head r.bound)) r.g₄
      fun n => Command.execAll (.ofInterp I) n body)
    (htracks : ∀ fuel, Tracks R (.ofInterp I) (rangeVars e i) (rangeVars e i)
      (r.head.assume (rangeGuard i r.head r.bound)) r.stop r.g₄ r.g₅
      (Command.execAll (.ofInterp I) fuel body)) :
    Ends I e.scope.vars s g
      fun n => (Command.forRange i lo hi inv body o).exec (.ofInterp I) n := by
  intro ρ k hm
  have hall : ∀ σ nodes, (Machine.ofInterp I).Answers σ nodes := fun _ _ _ _ => trivial
  obtain ⟨hdefLo, hm1, hfirst⟩ := r.matches_first hF hgF hm (hall _ _)
  obtain ⟨hdefHi, hm2, hbound⟩ := r.matches_bound hF hgF hm1 (hall _ _)
  obtain ⟨hm3, hhead⟩ := r.atHead_entry hF hgF hm2 hfirst (hall _ _)
  have hsteps : ∀ nk : ℤ × Config, AtRangeHead (.ofInterp I) e.scope.vars i inv
      (Command.affectedAll body)
        (Function.update k.store i (.int (lo.eval I k.store).toInt)) nk.1 nk.2.store →
        Halts (fun n => (Machine.ofInterp I).forStep i (r.bound.eval I ρ).toInt inv
          (Command.execAll (.ofInterp I) n body) nk) fun _ => True := by
    intro nk hk
    refine .after (Machine.check_ne_unfinished I _ _ _)
      (Machine.ensures_check fun hans => ⟨hk.invariant hans, ?_⟩)
    obtain ⟨ρ', -, hm4, hmean⟩ := r.matches_head hF hgF hm3 hk hans
    by_cases hn : nk.1 < (r.bound.eval I ρ).toInt
    · simp only [hn, if_true]
      have hm4' := (hm4.assume (hmean.mpr hn)).mono (vars_declare_sub hready.covers.wildcard i)
      exact (hbody ρ' ⟨_, nk.2.choices⟩ hm4').bind fun _ _ => .done trivial
    · simp only [hn, if_false]
      exact .done trivial
  refine .after (Machine.evaluate_ne_unfinished I _ _ _ _)
    (Machine.ensures_evaluate fun _ => ⟨fun _ => hdefLo, ?_⟩)
  refine .after (Machine.evaluate_ne_unfinished I _ _ _ _)
    (Machine.ensures_evaluate fun _ => ⟨fun _ => hdefHi, ?_⟩)
  rw [← hbound]
  refine Halts.iterate (fun nk => ((r.bound.eval I ρ).toInt - nk.1).toNat) (J := fun nk =>
    AtRangeHead (.ofInterp I) e.scope.vars i inv (Command.affectedAll body) _ nk.1 nk.2.store)
    (fun nk hk => ?_) _ hhead
  refine ((hsteps nk hk).and_ensures fun fuel =>
    (r.ensures_step hready hd hbodyFaults hF hgF (htracks fuel) hm3 hk).safe hunit).mono ?_
  rintro (nk' | k') ⟨-, h⟩
  · obtain ⟨⟨hlt, hnext⟩, hhead'⟩ := h
    have hlt' : nk.1 < (r.bound.eval I ρ).toInt := hlt
    exact ⟨hhead', by omega⟩
  · trivial

/-! ### Blocks -/

theorem ends_simple {c : Command} {frame : Frame} (hc : c.IsSimple)
    (h : CommandRun ctx R e c frame s s' g g') (hF : Sound R (.ofInterp I) gF) (hgF : g'.Grows gF)
    (hunit : R.unitLiterals) : Ends I e.scope.vars s g fun n => c.exec (.ofInterp I) n := by
  intro ρ k hm
  have htracks : Tracks R (.ofInterp I) e.scope.vars (Scoping.command e c).1.scope.vars s s' g g'
      (c.exec (.ofInterp I) 0) := tracks_simple hc h hF hgF
  exact hc.halts (((htracks ρ k hm).safe hunit).mono fun _ _ => trivial)

mutual

/-- Runs of a command halt. -/
theorem ends_run (hF : Sound R (.ofInterp I) gF) (hunit : R.unitLiterals)
    (hmode : ctx.modes.termination = .total) (c : Command) {e frame s s' g g'}
    (h : CommandRun ctx R e c frame s s' g g') (hgF : g'.Grows gF) :
    Ends I e.scope.vars s g fun n => c.exec (.ofInterp I) n := by
  cases c with
  | cond bs =>
    cases bs with
    | otherwise b =>
      obtain ⟨r⟩ := otherwiseCourse h block_reaches
      have hblock := ends_block hF hunit hmode b ⟨h.ready, h.typed, h.faultless, r.blockRun⟩
        (r.updates.grows.trans hgF)
      intro ρ k hm
      simpa only [Command.exec, Branches.exec] using hblock ρ k hm
    | branch c b rest =>
      have hbs := ends_alternative hF hunit hmode (.branch c b rest) h.branches hgF
      intro ρ k hm
      simpa only [Command.exec] using hbs ρ k hm
  | whileLoop c inv variant body =>
    obtain ⟨r⟩ := whileCourse h block_reaches
    have hb := h.whileBody r
    obtain ⟨-, -, -, -, hg6⟩ := r.grows h.typed.2.2.1
    have hgF5 := (r.preserved.grows.trans hg6).trans hgF
    exact r.ends h.ready h.typed.2.2.1 hF hgF hunit hmode (ends_block hF hunit hmode body hb hgF5)
      fun fuel => (tracks_block hF body hb hgF5).mono hb.keeps
  | forRange i lo hi inv body =>
    obtain ⟨r⟩ := forCourse h block_reaches
    have hb := h.forBody r
    have hgF5 := (r.nextUpdates.grows.trans r.preserved.grows).trans hgF
    exact r.ends h.ready h.declareFaults hb.faultless hF hgF hunit (ends_block hF hunit hmode body hb hgF5)
      fun fuel => (tracks_block hF body hb hgF5).mono hb.keeps
  | _ => exact ends_simple trivial h hF hgF hunit

theorem ends_alternative (hF : Sound R (.ofInterp I) gF) (hunit : R.unitLiterals)
    (hmode : ctx.modes.termination = .total) (bs : Branches) {e subject s s' g g'}
    (h : BranchesRun ctx R e bs subject s s' g g') (hgF : g'.Grows gF) :
    Ends I e.scope.vars s g fun n => bs.exec (.ofInterp I) n := by
  cases bs with
  | otherwise b =>
    have hblock := ends_block hF hunit hmode b ⟨h.ready, h.typed, h.faultless, h.gives⟩ hgF
    intro ρ k hm
    simpa only [Branches.exec] using hblock ρ k hm
  | branch c b rest =>
    obtain ⟨r⟩ := branchCourse h block_reaches (reaches_alternative rest)
    have hgF3 := r.updates.grows.trans hgF
    exact r.ends hF hgF (ends_block hF hunit hmode b (h.first r) (r.elseReaches.grows.trans hgF3))
      (ends_alternative hF hunit hmode rest (h.others r) hgF3)

theorem ends_block (hF : Sound R (.ofInterp I) gF) (hunit : R.unitLiterals)
    (hmode : ctx.modes.termination = .total) (cs : List Command) {e s s' g g'}
    (h : BlockRun ctx R e cs s s' g g') (hgF : g'.Grows gF) :
    Ends I e.scope.vars s g fun n => Command.execAll (.ofInterp I) n cs := by
  cases cs with
  | nil =>
    intro ρ k hm
    exact .done trivial
  | cons c cs =>
    obtain ⟨frame, s₁, g₁, h1, h2⟩ := h.of_cons
    have hlater := h2 (reaches_run c h1).2
    have hgF1 := (reaches_block cs hlater).2.grows.trans hgF
    have hfirst := ends_run hF hunit hmode c h1 hgF1
    have hrest := ends_block hF hunit hmode cs hlater hgF
    intro ρ k hm
    refine (hfirst.tracks (fun fuel => tracks_run hF c h1 hgF1) hunit hm).bind fun k' => ?_
    rintro ⟨ρ', -, hm'⟩
    exact hrest ρ' k' ⟨hm'.fits, hm'.values, hm'.facts⟩

end

/-- Runs of a function halt. -/
theorem FunctionCourse.halts {f : Function} (r : FunctionCourse R ctx f gF)
    (hF : Sound R (.ofInterp I) gF) (hunit : R.unitLiterals)
    (hmode : ctx.modes.termination = .total) {args : List Val}
    (hargs : Ty.HasAll (f.inputs.map Declaration.type) args) (choices : ℕ → Val) :
    Halts (fun fuel => f.execute (.ofInterp I) fuel args choices) fun _ => True := by
  have hgF2 : r.g₂.Grows gF := r.resultConditions.grows.trans r.postConditions.grows
  have hrun : Halts (fun fuel => f.run (.ofInterp I) fuel args choices) fun _ => True := by
    refine .after (Machine.assume_ne_unfinished I _ _) (Machine.ensures_assume fun hans => ?_)
    obtain ⟨hdef, hentry⟩ := r.matches_entry hF hargs hans
    refine ⟨fun _ => hdef, fun hpre => ?_⟩
    have hbody := ends_block hF hunit hmode f.body r.body hgF2
    refine (hbody.tracks (fun fuel => tracks_block hF f.body r.body hgF2) hunit (k := ⟨_, choices⟩)
      (hentry hpre)).bind fun k => ?_
    rintro ⟨ρ, -, hm⟩
    refine .after (Machine.evaluate_ne_unfinished I _ _ _ _)
      (Machine.ensures_evaluate fun hansResult => ⟨fun _ => ?_, .done trivial⟩)
    exact (r.post_of_matches hF hm hansResult).1 hunit
  refine (hrun.and_ensures fun fuel => (r.ensures_run hF hargs fuel choices).safe hunit).bind ?_
  rintro ⟨σ, v⟩ ⟨-, hpost⟩
  exact .after (Machine.check_ne_unfinished I _ _ _)
    (Machine.ensures_check fun hans => ⟨hpost hans, .done trivial⟩)

end Generation

open Generation in
/-- If loops have to end and all obligations of a function without calls are true, then every run of it
halts, whatever the values of uninitialised variables: it is done or stops at a false assumption. -/
theorem Function.execute_halts (modes : Modes) (hmode : modes.termination = .total)
    (functions : List Function) (f : Function) (hvalid : Scoping.function functions f = [])
    (hwt : f.WellTyped .callFree functions) (os : List Obligation)
    (hos : f.obligations modes functions = .ok os) (call : String → List Val → Val)
    (byZero : Operator → ℤ → ℤ) (htrue : ∀ o ∈ os, o.Holds (.plain call byZero))
    (halikes : ∀ a ∈ f.alikes modes functions, a.Same (.plain call byZero)) (args : List Val)
    (hargs : Ty.HasAll (f.inputs.map Declaration.type) args) (choices : ℕ → Val) :
    ∃ fuel₀ out, (∀ fuel, fuel₀ ≤ fuel →
      f.execute (.ofInterp (.plain call byZero)) fuel args choices = out) ∧
        ((∃ v, out = .done v) ∨ out = .blocked) := by
  obtain ⟨g, ⟨r⟩, hsound⟩ := exists_sound_callFree hvalid hwt hos htrue halikes
  obtain ⟨fuel₀, out, hrun, hout⟩ := r.halts hsound trivial hmode hargs choices
  refine ⟨fuel₀, out, hrun, ?_⟩
  rcases hout with ⟨v, hv, -⟩ | hout
  · exact .inl ⟨v, hv⟩
  · exact .inr hout

theorem Function.countdown_halts :
    ∃ os, countdown.obligations .standard [countdown] = .ok os ∧
      (∀ o ∈ os, o.Holds (.plain (fun _ _ => .unit) fun _ _ => 0)) ∧
        ∃ fuel₀ out, (∀ fuel, fuel₀ ≤ fuel → countdown.execute
          (.ofInterp (.plain (fun _ _ => .unit) fun _ _ => 0)) fuel [.int 3] (fun _ => .unit) = out) ∧
            ((∃ v, out = .done v) ∨ out = .blocked) := by
  obtain ⟨os, hos, htrue⟩ := obligations_countdown (.plain (fun _ _ => .unit) fun _ _ => 0)
  have halikes : countdown.alikes .standard [countdown] = [] := by cbv
  exact ⟨os, hos, htrue, Function.execute_halts .standard rfl [countdown] countdown
    (by decide +kernel) wellTyped_countdown os hos _ _ htrue (by simp [halikes]) [.int 3]
    ⟨_, _, rfl, ⟨3, rfl⟩, rfl⟩ _⟩

end Verdict
