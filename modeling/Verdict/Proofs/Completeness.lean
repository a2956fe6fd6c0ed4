import Verdict.Proofs.Soundness

/-! # No false alarms without loops

If no run of a function without loops and calls goes wrong, all its obligations are true
(`Function.obligations_hold`). The meaning of the constants is fixed first, and the run is the one in
which the inputs and the uninitialised variables have the values of their constants. It passes every
command that comes before a false assumption, and what comes after that is assumed to be impossible. Of
the branches of a conditional one is run. The obligations of the other branches assume a condition that
is false, provided that the branches assume nothing else, since a conditional forgets what its branches
assume.

The bound of an array is a word in the condition on its positions. Array types with more elements than
positions can be built, although they cannot be read, and for them the obligations are too strong
(`Function.alarm_of_length`). -/

namespace Verdict

mutual

/-- Whether a command has no loops, and assumptions only where they are allowed, which is not in a
branch. -/
def Command.LoopFree (assumes : Prop) : Command → Prop
  | .assume _ _ => assumes
  | .cond bs _ => bs.LoopFree
  | .whileLoop _ _ _ _ _ | .forRange _ _ _ _ _ _ => False
  | _ => True

/-- Whether branches have neither loops nor assumptions. -/
def Branches.LoopFree : Branches → Prop
  | .otherwise b => Command.AllLoopFree False b
  | .branch _ b rest => Command.AllLoopFree False b ∧ rest.LoopFree

/-- Whether the commands of a block have no loops, and assumptions only where they are allowed. -/
def Command.AllLoopFree (assumes : Prop) : List Command → Prop
  | [] => True
  | c :: cs => c.LoopFree assumes ∧ Command.AllLoopFree assumes cs

end

namespace Generation

open GenM

variable {R : Rules} {ctx : GenContext} {vars vars' vars'' : NameMap Ty} {g g' g'' gF : Generator}
  {s s' s'' : SymState} {subject : Subject} {e : Scoping.Env} {I : Interp} {ρ : Valuation} {fuel : ℕ}
  {exec : Config → Ending Config}

/-! ### False facts and sequences -/

/-- What is generated where a fact is false is true. -/
theorem Reaches.holdsAt_of_false (h : Reaches R vars s s' g g') (hfalse : ∃ f ∈ s.facts, ¬ f.Holds I ρ) :
    Adds (Obligation.HoldsAt I ρ) g g' := by
  obtain ⟨f, hf, hno⟩ := hfalse
  exact h.adds.mono fun o ho has => absurd (has f (ho f hf)) hno

theorem exists_false_assume {f : Formula} (h : ¬ f.Holds I ρ) :
    ∃ fact ∈ (s.assume f).facts, ¬ fact.Holds I ρ :=
  ⟨f, SymState.self_mem_facts_assume fun htrue => h (Formula.holds_of_isTrue htrue), h⟩

theorem Realizes.mono (h : Realizes I ρ vars vars' s s' g g' exec)
    (hvars : ∀ x t, vars''.get? x = some t → vars'.get? x = some t) :
    Realizes I ρ vars vars'' s s' g g' exec := by
  intro σ hm hsafe
  obtain ⟨hadds, hfalse | ⟨σ', hm', hrun⟩⟩ := h σ hm hsafe
  · exact ⟨hadds, .inl hfalse⟩
  · exact ⟨hadds, .inr ⟨σ', hm'.mono hvars, hrun⟩⟩

theorem Realizes.seq {exec' : Config → Ending Config} (h : Realizes I ρ vars vars' s s' g g' exec)
    (h' : Realizes I ρ vars' vars'' s' s'' g' g'' exec') (hreach : Reaches R vars'' s' s'' g' g'') :
    Realizes I ρ vars vars'' s s'' g g'' fun k => exec k >>= exec' := by
  intro σ hm hsafe
  simp only [Ending.Safe, Ending.ensures_bind] at hsafe
  obtain ⟨hadds, hfalse | ⟨σ', hm', hrun⟩⟩ := h σ hm fun choices =>
    (hsafe choices).mono fun _ _ => trivial
  · refine ⟨hadds.trans (hreach.holdsAt_of_false hfalse), .inl ?_⟩
    obtain ⟨f, hf, hno⟩ := hfalse
    exact ⟨f, hreach.facts f hf, hno⟩
  · have hsafe' : ∀ choices, (exec' ⟨σ', choices⟩).Safe := by
      intro choices'
      obtain ⟨choices, hdone⟩ := hrun choices'
      have hrest := hsafe choices
      rwa [hdone] at hrest
    obtain ⟨hadds', hend⟩ := h' σ' hm' hsafe'
    refine ⟨hadds.trans hadds', hend.imp_right ?_⟩
    rintro ⟨σ'', hm'', hrun'⟩
    refine ⟨σ'', hm'', fun choices'' => ?_⟩
    obtain ⟨choices', hdone'⟩ := hrun' choices''
    obtain ⟨choices, hdone⟩ := hrun choices'
    refine ⟨choices, ?_⟩
    dsimp only
    rw [hdone, Ending.done_bind, hdone']

/-! ### Conditionals -/

/-- A part of a body that assumes nothing has a run to its end where the facts before it are true. -/
theorem Realizes.runs {σ : Valuation} (h : Realizes I ρ vars vars' s s' g g' exec)
    (hm : s.Matches I vars g ρ σ) (hsafe : ∀ choices, (exec ⟨σ, choices⟩).Safe)
    (hfacts : s'.facts = s.facts) :
    Adds (Obligation.HoldsAt I ρ) g g' ∧ ∃ σ', s'.Matches I vars' g' ρ σ' ∧
      ∀ choices', ∃ choices, exec ⟨σ, choices⟩ = .done ⟨σ', choices'⟩ := by
  obtain ⟨hadds, ⟨f, hf, hno⟩ | hend⟩ := h σ hm hsafe
  · exact absurd (hm.facts f (hfacts ▸ hf)) hno
  · exact ⟨hadds, hend⟩

theorem OtherwiseCourse.realizes {b : List Command} {o : Origin} {M : Machine}
    (r : OtherwiseCourse R ctx e b s s' g g') (hfacts : r.stop.facts = s.facts)
    (hblock : Realizes I ρ e.scope.vars e.scope.vars s r.stop g r.g₁ (Command.execAll M fuel b)) :
    Realizes I ρ e.scope.vars e.scope.vars s s' g g' ((Command.cond (.otherwise b) o).exec M fuel) := by
  intro σ hm hsafe
  obtain ⟨hadds, σ', hm', hrun⟩ := hblock.runs hm hsafe hfacts
  exact ⟨hadds.trans (adds_of_eq r.updates.obligations),
    .inr ⟨σ', r.copied hm'.fits hm.facts hm'.agreeFor, hrun⟩⟩

section Branch

variable {c : Formula} {b : List Command} {rest : Branches} {σ : Valuation}
  (r : BranchCourse R ctx e subject c b rest s s' g g') (hE : Exact R I gF ρ) (hgF : g'.Grows gF)
include hE

theorem BranchCourse.matches_before (hm : s.Matches I e.scope.vars g ρ σ) :
    r.before.Matches I e.scope.vars r.g₁ ρ σ :=
  r.conditions.matches_of_calls hE.calls hm

include hgF

theorem BranchCourse.realizes
    (hthenFacts : r.thenState.facts = (r.before.assume r.cond).facts)
    (hthen : Realizes I ρ e.scope.vars e.scope.vars (r.before.assume r.cond) r.thenState r.g₁ r.g₂
      (Command.execAll (.ofInterp I) fuel b))
    (helseFacts : r.elseState.facts = (r.before.assume r.cond.negate).facts)
    (helse : Realizes I ρ e.scope.vars e.scope.vars (r.before.assume r.cond.negate) r.elseState r.g₂
      r.g₃ (rest.exec (.ofInterp I) fuel)) :
    Realizes I ρ e.scope.vars e.scope.vars s s' g g'
      ((Branches.branch c b rest).exec (.ofInterp I) fuel) := by
  intro σ hm hsafe
  have hgF3 := r.updates.grows.trans hgF
  have hgF2 := r.elseReaches.grows.trans hgF3
  have hgF1 := r.thenReaches.grows.trans hgF2
  have ha := hE.of_grows hgF1
  have hmean := r.meaning hE.regular ha hm
  have hm1 := r.matches_before hE hm
  have hsafe0 := hsafe fun _ => .unit
  simp only [Ending.Safe, Branches.exec, Ending.ensures_bind] at hsafe0
  obtain ⟨hdef, taken, htaken, -, htruth⟩ := Machine.of_ensures_truth hsafe0
  have hcond := r.conditions.complete hE.calls hE.lengths hE.regular ha hm hdef
  have hlast := adds_of_eq (P := Obligation.HoldsAt I ρ) r.updates.obligations
  have hexec : ∀ choices, (Branches.branch c b rest).exec (.ofInterp I) fuel ⟨σ, choices⟩ =
      if taken then Command.execAll (.ofInterp I) fuel b ⟨σ, choices⟩
      else rest.exec (.ofInterp I) fuel ⟨σ, choices⟩ := fun choices => by
    simp only [Branches.exec, htruth, Ending.done_bind]
  by_cases hc : c.Holds I σ
  · simp only [if_pos (htaken.mpr hc)] at hexec
    have hyes := hmean.mpr hc
    obtain ⟨hadds, σ', hm', hrun⟩ := hthen.runs (hm1.assume hyes)
      (fun choices => hexec choices ▸ hsafe choices) hthenFacts
    have hother := r.elseReaches.holdsAt_of_false (I := I) (ρ := ρ)
      (exists_false_assume fun hno => (Formula.holds_negate _).mp hno hyes)
    refine ⟨((hcond.trans hadds).trans hother).trans hlast, .inr ⟨σ', ?_, fun choices' => ?_⟩⟩
    · exact r.merged (hE.of_grows hgF) (hE.fits_of_grows hgF3) hm1.facts (fun _ => hm'.agreeFor)
        fun hno => absurd hyes hno
    · obtain ⟨choices, hdone⟩ := hrun choices'
      exact ⟨choices, (hexec choices).trans hdone⟩
  · simp only [if_neg (htaken.not.mpr hc)] at hexec
    have hno := hmean.not.mpr hc
    have hm2 : r.before.Matches I e.scope.vars r.g₂ ρ σ :=
      ⟨hE.fits_of_grows hgF2, hm1.values, hm1.facts⟩
    obtain ⟨hadds, σ', hm', hrun⟩ := helse.runs (hm2.assume ((Formula.holds_negate _).mpr hno))
      (fun choices => hexec choices ▸ hsafe choices) helseFacts
    have hother := r.thenReaches.holdsAt_of_false (I := I) (ρ := ρ) (exists_false_assume hno)
    refine ⟨((hcond.trans hother).trans hadds).trans hlast, .inr ⟨σ', ?_, fun choices' => ?_⟩⟩
    · exact r.merged (hE.of_grows hgF) (hE.fits_of_grows hgF3) hm1.facts (fun hyes => absurd hyes hno)
        fun _ => hm'.agreeFor
    · obtain ⟨choices, hdone⟩ := hrun choices'
      exact ⟨choices, (hexec choices).trans hdone⟩

end Branch

/-! ### Blocks -/

theorem realizes_simple {c : Command} {assumes : Prop} {frame : Frame} (hc : c.IsSimple)
    (hfree : c.LoopFree assumes) (h : CommandRun ctx R e c frame s s' g g') (hE : Exact R I gF ρ)
    (hgF : g'.Grows gF) :
    (¬ assumes → s'.facts = s.facts) ∧
      Realizes I ρ e.scope.vars (Scoping.command e c).1.scope.vars s s' g g'
        (c.exec (.ofInterp I) fuel) := by
  obtain ⟨-, hfacts, hsim⟩ := h.simulates fuel hc
  refine ⟨fun hno => hfacts hE.calls fun hassume => hno ?_, hsim.realizes hE hgF⟩
  cases c <;> first | exact hassume.elim | simpa only [Command.LoopFree] using hfree

mutual

/-- The obligations of a command without loops are true if no run of it goes wrong. -/
theorem realizes_run (hE : Exact R I gF ρ) (c : Command) {assumes e frame s s' g g'}
    (hfree : c.LoopFree assumes) (h : CommandRun ctx R e c frame s s' g g') (hgF : g'.Grows gF) :
    (¬ assumes → s'.facts = s.facts) ∧
      Realizes I ρ e.scope.vars (Scoping.command e c).1.scope.vars s s' g g'
        (c.exec (.ofInterp I) fuel) := by
  cases c with
  | cond bs =>
    cases bs with
    | otherwise b =>
      obtain ⟨r⟩ := otherwiseCourse h block_reaches
      have hb : BlockRun ctx R e b s r.stop g r.g₁ := ⟨h.ready, h.typed, h.faultless, r.blockRun⟩
      obtain ⟨hfacts, hblock⟩ := realizes_block hE b hfree hb (r.updates.grows.trans hgF)
      exact ⟨fun _ => r.updates.facts, r.realizes (hfacts not_false) (hblock.mono hb.keeps)⟩
    | branch c b rest =>
      obtain ⟨hfacts, hbs⟩ := realizes_alternative hE (.branch c b rest) hfree h.branches hgF
      exact ⟨fun _ => hfacts, by simpa only [Command.exec, Scoping.command] using hbs⟩
  | whileLoop | forRange => simp only [Command.LoopFree] at hfree
  | _ => exact realizes_simple trivial hfree h hE hgF

theorem realizes_alternative (hE : Exact R I gF ρ) (bs : Branches) {e subject s s' g g'} (hfree : bs.LoopFree)
    (h : BranchesRun ctx R e bs subject s s' g g') (hgF : g'.Grows gF) :
    s'.facts = s.facts ∧
      Realizes I ρ e.scope.vars e.scope.vars s s' g g' (bs.exec (.ofInterp I) fuel) := by
  cases bs with
  | otherwise b =>
    have hb : BlockRun ctx R e b s s' g g' := ⟨h.ready, h.typed, h.faultless, h.gives⟩
    obtain ⟨hfacts, hblock⟩ := realizes_block hE b hfree hb hgF
    exact ⟨hfacts not_false, by simpa only [Branches.exec] using hblock.mono hb.keeps⟩
  | branch c b rest =>
    obtain ⟨r⟩ := branchCourse h block_reaches (reaches_alternative rest)
    have hgF3 := r.updates.grows.trans hgF
    obtain ⟨hthenFacts, hthen⟩ := realizes_block hE b hfree.1 (h.first r) (r.elseReaches.grows.trans hgF3)
    obtain ⟨helseFacts, helse⟩ := realizes_alternative hE rest hfree.2 (h.others r) hgF3
    refine ⟨?_, r.realizes hE hgF (hthenFacts not_false) (hthen.mono (h.first r).keeps) helseFacts helse⟩
    rw [r.updates.facts, r.conditions.callFree hE.calls]

theorem realizes_block (hE : Exact R I gF ρ) (cs : List Command) {assumes e s s' g g'}
    (hfree : Command.AllLoopFree assumes cs) (h : BlockRun ctx R e cs s s' g g') (hgF : g'.Grows gF) :
    (¬ assumes → s'.facts = s.facts) ∧ Realizes I ρ e.scope.vars (Scoping.block e cs).1.scope.vars s s' g g'
      (Command.execAll (.ofInterp I) fuel cs) := by
  cases cs with
  | nil =>
    obtain ⟨rfl, rfl⟩ := gives_pure h.gives
    refine ⟨fun _ => rfl, fun σ hm _ => ⟨adds_of_eq rfl, .inr ⟨σ, hm, fun choices' => ?_⟩⟩⟩
    exact ⟨choices', by simp only [Command.execAll]⟩
  | cons c cs =>
    obtain ⟨frame, s₁, g₁, h1, h2⟩ := h.of_cons
    have hlast := h2 (reaches_run c h1).2
    have hrest := (reaches_block cs hlast).2
    obtain ⟨hfacts, hfirst⟩ := realizes_run hE c hfree.1 h1 (hrest.grows.trans hgF)
    obtain ⟨hfacts', hlater⟩ := realizes_block hE cs hfree.2 hlast hgF
    have hnext : Realizes I ρ e.scope.vars (Scoping.command e c).1.scope.vars s { s₁ with frame } g
        g₁ (c.exec (.ofInterp I) fuel) := by
      intro σ hm hsafe
      obtain ⟨hadds, hend⟩ := hfirst σ hm hsafe
      refine ⟨hadds, hend.imp_right ?_⟩
      rintro ⟨σ', hm', hrun⟩
      exact ⟨σ', ⟨hm'.fits, hm'.values, hm'.facts⟩, hrun⟩
    refine ⟨fun hno => (hfacts' hno).trans (hfacts hno), ?_⟩
    have hseq := hnext.seq hlater hrest
    intro σ hm hsafe
    simp only [Command.execAll] at hsafe ⊢
    simpa only [Scoping.block] using hseq σ hm hsafe

end

/-! ### Functions -/

/-- The arguments that the constants of the inputs denote. -/
noncomputable def argumentsOf (ρ : Valuation) (ds : List Declaration) : List Val :=
  ds.map fun d => d.type.pick (ρ d.name)

theorem hasAll_argumentsOf {ds : List Declaration} (h : ∀ d ∈ ds, d.type.hasUnknown = false) :
    Ty.HasAll (ds.map Declaration.type) (argumentsOf ρ ds) := by
  induction ds with
  | nil => rfl
  | cons d ds ih =>
    exact ⟨_, _, rfl, Ty.has_pick (h d List.mem_cons_self) _,
      ih fun d' hd' => h d' (List.mem_cons_of_mem d hd')⟩

/-- An input that is declared again has its last argument, like its last type. -/
theorem foldl_argumentsOf (ds : List Declaration) (hnames : ∀ d ∈ ds, '\'' ∉ d.name.toList)
    (symbols : NameMap Ty) {σ : Valuation} (hsymbols : ∀ x t, symbols.get? x = some t → '\'' ∉ x.toList)
    (h : ∀ x t, symbols.get? x = some t → σ x = t.pick (ρ x)) (x : String) (t : Ty)
    (hx : (ds.foldl (fun m d => m.insert d.name d.type) symbols).get? x = some t) :
    (ds.zip (argumentsOf ρ ds)).foldl
      (fun σ (d, v) => Function.update (Function.update σ d.name v) (oldName d.name) v) σ x =
        t.pick (ρ x) := by
  induction ds generalizing symbols σ with
  | nil => exact h x t hx
  | cons d ds ih =>
    have hd := hnames d List.mem_cons_self
    refine ih (fun d' hd' => hnames d' (List.mem_cons_of_mem d hd')) _ (fun y u hy => ?_)
      (fun y u hy => ?_) hx
    · rw [NameMap.get?_insert] at hy
      split_ifs at hy with hdy
      · exact hdy ▸ hd
      · exact hsymbols y u hy
    · rw [NameMap.get?_insert] at hy
      dsimp only
      split_ifs at hy with hdy
      · subst hdy
        obtain rfl := Option.some_inj.mp hy
        rw [Function.update_of_ne (ne_oldName hd _), Function.update_self]
      · rw [Function.update_of_ne (ne_oldName (hsymbols y u hy) _), Function.update_of_ne (Ne.symm hdy),
          h y u hy]

/-- Every meaning of the constants matches the initial state with the arguments that it gives. -/
theorem matches_argumentsOf {functions : List Function} {f : Function} {frame : Frame}
    (hd : Scoping.Declares ⟨.empty, functions⟩ f.inputs)
    (hframe : Frame.entry functions f = .ok frame) (hg : g.symbols = inputSymbols f)
    (hρ : ρ.Fits g.symbols) :
    (initial frame f).Matches I (f.entryEnv functions).scope.vars g ρ
      (f.entryStore (argumentsOf ρ f.inputs)) := by
  have hargs := hasAll_argumentsOf (ρ := ρ) (known_inputs hframe)
  refine (matches_initial (I := I) hd hframe hg hargs).agree (R := .callFree)
    (typed_initial hd hframe hg) (fun x t hx => ?_) hρ
  rw [hg] at hx
  have hpick := foldl_argumentsOf (ρ := ρ) (σ := fun _ => .unit) f.inputs hd.not_quote_mem
    .empty (fun _ _ hy => nomatch hy) (fun _ _ hy => nomatch hy) x t hx
  exact hpick.trans (hρ x t (hg ▸ hx)).pick

namespace FunctionCourse

variable {f : Function} (r : FunctionCourse R ctx f gF) (hE : Exact R I gF ρ)

/-- What comes after the body is true where a fact after it is false. -/
theorem holdsAt_later (hfalse : ∃ f ∈ r.stop.facts, ¬ f.Holds I ρ) :
    Adds (Obligation.HoldsAt I ρ) r.g₂ gF := by
  have hresult := r.resultConditions.reaches r.bodyReaches.known
  have hpost := r.postConditions.reaches hresult.known
  refine (hresult.holdsAt_of_false hfalse).trans (hpost.holdsAt_of_false ?_)
  obtain ⟨fact, hfact, hno⟩ := hfalse
  exact ⟨fact, hresult.facts fact hfact, hno⟩

include r hE

/-- What comes after the body is true where the result and the postcondition are evaluated safely. -/
theorem holdsAt_exit {σ : Valuation}
    (hm : r.stop.Matches I (f.exitEnv ctx.functions).scope.vars r.g₂ ρ σ)
    (hsafe : ((Machine.ofInterp I).value σ f.result).Ensures True fun v =>
      ((Machine.ofInterp I).check (Function.update σ resultName v) .postcondition
        f.postcondition).Ensures True fun _ => True) :
    Adds (Obligation.HoldsAt I ρ) r.g₂ gF := by
  have ha := hE.of_grows r.postConditions.grows
  obtain ⟨hdef, hcheck, -⟩ := Machine.of_ensures_evaluate hsafe
  obtain ⟨hpost, -, -⟩ := Machine.of_ensures_check hcheck
  have hm3 := r.resultConditions.matches_of_calls hE.calls hm
  have hset := hm3.set (v := r.result) (adjoins_postEnv ctx.functions f)
  rw [r.resultMeaning hE.regular ha hm] at hset
  exact (r.resultConditions.complete hE.calls hE.lengths hE.regular ha hm (.inr hdef)).trans
    (r.postConditions.complete hE.calls hE.lengths hE.regular hE.alikes hset hpost)

/-- The obligations of a function without loops are true if no run goes wrong. -/
theorem holdsAt (hfree : Command.AllLoopFree True f.body)
    (hsafe : ∀ args, Ty.HasAll (f.inputs.map Declaration.type) args → ∀ choices,
      (f.execute (.ofInterp I) fuel args choices).Safe) :
    ∀ o ∈ gF.obligations, o.HoldsAt I ρ := by
  have hgF2 := r.resultConditions.grows.trans r.postConditions.grows
  have hgF1 := r.bodyReaches.grows.trans hgF2
  have ha := hE.of_grows hgF1
  have hm := matches_argumentsOf (I := I) r.declares r.entry r.symbols
    (hE.fits_of_grows (r.preConditions.grows.trans hgF1))
  have hrun := hsafe _ (hasAll_argumentsOf (ρ := ρ) (known_inputs r.entry))
  simp only [Ending.Safe, Function.execute, Function.run, Ending.ensures_bind] at hrun
  obtain ⟨hdef, -⟩ := Machine.of_ensures_assume (hrun fun _ => .unit)
  have hpre := r.preConditions.complete hE.calls hE.lengths hE.regular ha hm hdef
  have hmean := r.preMeaning hE.regular ha hm
  suffices hall : Adds (Obligation.HoldsAt I ρ) r.g₁ gF by
    intro o ho
    refine ((hpre.trans hall) o ho).resolve_left fun hmem => ?_
    rw [r.none] at hmem
    cases hmem
  by_cases hholds : f.precondition.Holds I (f.entryStore (argumentsOf ρ f.inputs))
  · have hm1 : (r.entered.assume r.pre).Matches I (f.entryEnv ctx.functions).scope.vars r.g₁ ρ
        (f.entryStore (argumentsOf ρ f.inputs)) :=
      (r.preConditions.matches_of_calls hE.calls hm).assume (hmean.mpr hholds)
    have hbody := fun choices => ((Machine.of_ensures_assume (hrun choices)).2 hholds).1
    obtain ⟨hadds, hfalse | ⟨σ, hm2, hdone⟩⟩ := (realizes_block hE f.body hfree r.body
      hgF2).2 _ hm1 fun choices => (hbody choices).mono fun _ _ => trivial
    · exact hadds.trans (r.holdsAt_later hfalse)
    · obtain ⟨choices, hend⟩ := hdone fun _ => .unit
      have hexit := hbody choices
      rw [hend] at hexit
      exact hadds.trans (r.holdsAt_exit hE hm2 hexit)
  · have hfalse := exists_false_assume (s := r.entered) (hmean.not.mpr hholds)
    refine (r.bodyReaches.holdsAt_of_false hfalse).trans (r.holdsAt_later ?_)
    obtain ⟨fact, hfact, hno⟩ := hfalse
    exact ⟨fact, r.bodyReaches.facts fact hfact, hno⟩

end FunctionCourse

end Generation

/-- The rules for functions without calls whose arrays have only elements with positions. -/
def Rules.indexed : Rules := ⟨⟨fun n => n < 2 ^ 31, fun _ => True, fun _ => False⟩, [], False⟩

open Generation in
/-- If no run of a function without loops and calls goes wrong, where only assumptions outside branches
stop a run, then all its obligations are true. -/
theorem Function.obligations_hold (modes : Modes) (functions : List Function) (f : Function)
    (hvalid : Scoping.function functions f = []) (hwt : f.WellTyped .indexed functions)
    (hfree : Command.AllLoopFree True f.body)
    (os : List Obligation) (hos : f.obligations modes functions = .ok os)
    (call : String → List Val → Val) (byZero : Operator → ℤ → ℤ)
    (halikes : ∀ a ∈ f.alikes modes functions, a.Same (.plain call byZero)) (fuel : ℕ)
    (hsafe : ∀ args, Ty.HasAll (f.inputs.map Declaration.type) args → ∀ choices v,
      f.execute (.ofInterp (.plain call byZero)) fuel args choices ≠ .wrong v) :
    ∀ o ∈ os, o.Holds (.plain call byZero) := by
  obtain ⟨g, hgives, hfinish, halike⟩ := gives_of_obligations hos
  obtain ⟨r⟩ := functionCourse hvalid hwt (Rules.suits_of_calls_nil rfl functions) hgives
  rw [hfinish]
  intro o ho
  obtain ⟨o, hmem, rfl⟩ := List.mem_map.mp ho
  refine (Obligation.holds_iff _).mpr fun ρ hρ => ?_
  have hE : Exact .indexed (.plain call byZero) g ρ :=
    ⟨rfl, fun _ => id, Interp.regular_plain (by simp [Rules.indexed]) byZero, halike ▸ halikes, hρ⟩
  exact r.holdsAt hE hfree (fun args hargs choices => Ending.safe_iff.mpr (hsafe args hargs choices))
    o hmem

/-- A quotient, or zero where there is none. -/
def ratio : Function where
  name := "ratio"
  inputs := [⟨"n", .i32, false, none⟩, ⟨"d", .i32, false, none⟩]
  output := .i32
  precondition := .lit true
  postcondition := .or (.equal (.value (.var "d")) (.num 0))
    (.equal (.value (.var resultName)) (.op .div (.value (.var "n")) (.value (.var "d"))))
  result := .var "q"
  body := [
    .declare ⟨"q", .i32, true, none⟩,
    .cond (.branch (.equal (.value (.var "d")) (.num 0))
      [.assign ⟨.name "q" none, .expr (.num 0) none, none⟩]
      (.otherwise [.assign ⟨.name "q" none,
        .expr (.op .div (.value (.var "n")) (.value (.var "d"))) none, none⟩])) none]
  origin := none

theorem wellTyped_ratio : ratio.WellTyped .indexed [ratio] := by
  refine ⟨trivial, ⟨trivial, ⟨⟨.i32, .inr (.inl rfl), ⟨.i32, ?_, rfl⟩, rfl⟩,
    ⟨⟨.i32, ⟨⟨rfl, rfl⟩, by simp⟩, .i32, ?_, rfl⟩, trivial⟩,
    ⟨.i32, ⟨⟨rfl, rfl, ⟨.i32, ?_, rfl⟩, ⟨.i32, ?_, rfl⟩⟩, by simp⟩, .i32, ?_, rfl⟩, trivial⟩, trivial⟩,
    ⟨⟨.i32, ?_, rfl⟩, by simp [Rules.indexed]⟩,
    ⟨.i32, .inr (.inl rfl), ⟨.i32, ?_, rfl⟩, rfl⟩,
    .i32, .inr (.inl rfl), ⟨.i32, ?_, rfl⟩, rfl, ⟨.i32, ?_, rfl⟩, ⟨.i32, ?_, rfl⟩⟩
  all_goals cbv

theorem execute_ratio (I : Interp) {args : List Val}
    (hargs : Ty.HasAll (ratio.inputs.map Declaration.type) args) (choices : ℕ → Val) (v : Violation) :
    ratio.execute (.ofInterp I) 0 args choices ≠ .wrong v := by
  obtain ⟨_, _, rfl, ⟨n, rfl⟩, _, _, rfl, ⟨d, rfl⟩, rfl⟩ := hargs
  by_cases hd : d = 0 <;>
    simp [Function.execute, Function.run, Machine.assume, Machine.check, Machine.truth, Machine.value,
      Machine.evaluate, Machine.Answers, Machine.ofInterp, ratio, Function.entryStore, oldName,
      Command.execAll, Command.exec, Branches.exec, Machine.assign, Machine.writes, Machine.index,
      Write.apply, Place.base, Formula.Holds, Formula.Defined, Value.var, Value.eval, Expr.eval,
      Place.eval, Expr.Defined, Value.Defined, Place.Defined, resultName, hd, Operator.Allows,
      Val.toInt]

theorem Function.ratio_obligations_hold :
    ∃ os, ratio.obligations .standard [ratio] = .ok os ∧ os.length = 3 ∧
      ∀ o ∈ os, o.Holds (.plain (fun _ _ => .unit) fun _ _ => 0) := by
  have halikes : ratio.alikes .standard [ratio] = [] := by cbv
  have hlength : (ratio.obligations .standard [ratio]).toOption.map List.length = some 3 := by
    cbv
  obtain ⟨os, hos, hlength⟩ := Option.map_eq_some_iff.mp hlength
  refine ⟨os, toOption_eq_some.mp hos, hlength, ?_⟩
  exact Function.obligations_hold .standard [ratio] ratio (by decide +kernel)
    wellTyped_ratio (by simp [ratio, Command.AllLoopFree, Command.LoopFree, Branches.LoopFree])
    os (toOption_eq_some.mp hos) _ _ (by simp [halikes]) 0 fun _ hargs => execute_ratio _ hargs

/-! ### Arrays with more elements than positions -/

/-- Reads the first element of an array that has more elements than there are positions. -/
def wide : Function where
  name := "wide"
  inputs := [⟨"a", .array .i32 (2 ^ 31), false, none⟩, ⟨"i", .i32, false, none⟩]
  output := .i32
  precondition := .equal (.value (.var "i")) (.num 0)
  postcondition := .lit true
  result := .place (.elem .array "a" (.var "i") none) none
  body := []
  origin := none

theorem wellTyped_wide : wide.WellTyped .callFree [wide] := by
  refine ⟨⟨.i32, .inr (.inl rfl), ⟨.i32, ?_, rfl⟩, rfl⟩, trivial,
    ⟨⟨.array .i32 (2 ^ 31), 2 ^ 31, ?_, rfl, trivial, .i32, ?_, rfl⟩, by simp [wide, Ty.bare]⟩, trivial⟩
  all_goals cbv

theorem execute_wide (I : Interp) {args : List Val}
    (hargs : Ty.HasAll (wide.inputs.map Declaration.type) args) (choices : ℕ → Val) (v : Violation) :
    wide.execute (.ofInterp I) 0 args choices ≠ .wrong v := by
  obtain ⟨_, _, rfl, ⟨a, rfl, -⟩, _, _, rfl, ⟨i, rfl⟩, rfl⟩ := hargs
  by_cases hi : i = 0 <;>
    simp [Function.execute, Function.run, Machine.assume, Machine.check, Machine.truth, Machine.value,
      Machine.evaluate, Machine.Answers, Machine.ofInterp, wide, Function.entryStore, oldName,
      Command.execAll, Formula.Holds, Formula.Defined, Value.var, Value.eval, Expr.eval, Place.eval,
      Expr.Defined, Value.Defined, Place.Defined, Val.InRange, hi, Val.toInt]

/-- What the obligation of `wide` says. -/
def wideOutline : Outline :=
  ⟨Generation.inputSymbols wide, [.equal (.value (.var "i")) (.num 0)],
    .and (.compare .le (.num 0) (.value (.var "i")))
      (.compare .lt (.value (.var "i")) (.num (-2147483648)))⟩

theorem not_holds_wideOutline (I : Interp) : ¬ wideOutline.Holds I := by
  intro h
  have hfits : (Valuation.extend (fun _ => .unit) .empty wideOutline.vars).Fits wideOutline.vars :=
    Valuation.Fits.extend (fun _ _ hx => nomatch hx) (fun _ _ hx => nomatch hx)
      (Generation.known_foldl wide.inputs (by decide) fun _ _ hx => nomatch hx)
  have hi : Valuation.extend (fun _ => .unit) .empty wideOutline.vars "i" = .int 0 := by cbv
  have hgoal := h _ hfits
  simp [wideOutline, Formula.Holds, Comparison.Holds, Value.var, Value.eval, Expr.eval, Place.eval,
    Val.Le, Val.Lt] at hgoal hi
  simp [hi] at hgoal

/-- The condition on a position of the array bounds it by the word for the length, which is negative. No
run goes wrong, and the obligation is false. -/
theorem Function.alarm_of_length :
    Scoping.function [wide] wide = [] ∧ wide.WellTyped .callFree [wide] ∧
      Command.AllLoopFree True wide.body ∧ wide.alikes .standard [wide] = [] ∧
      (∀ args, Ty.HasAll (wide.inputs.map Declaration.type) args → ∀ choices v,
        wide.execute (.ofInterp (.plain (fun _ _ => .unit) fun _ _ => 0)) 0 args choices ≠ .wrong v) ∧
      ∃ os, wide.obligations .standard [wide] = .ok os ∧
        ∃ o ∈ os, ¬ o.Holds (.plain (fun _ _ => .unit) fun _ _ => 0) := by
  refine ⟨by decide +kernel, wellTyped_wide, trivial, by cbv, fun _ hargs => execute_wide _ hargs, ?_⟩
  have houtline : (wide.obligations .standard [wide]).toOption.map (List.map Obligation.outline) =
      some [wideOutline] := by cbv
  obtain ⟨os, hos, hmap⟩ := Option.map_eq_some_iff.mp houtline
  obtain ⟨o, rfl, ho⟩ := List.map_eq_singleton_iff.mp hmap
  refine ⟨[o], toOption_eq_some.mp hos, o, List.mem_singleton_self o, fun hholds => ?_⟩
  have hsays : o.outline.Holds _ := (Obligation.holds_iff o).mp hholds
  exact not_holds_wideOutline _ (ho ▸ hsays)

end Verdict
