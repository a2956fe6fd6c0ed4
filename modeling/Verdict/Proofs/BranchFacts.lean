import Verdict.Proofs.TwinRuns

/-! # What is known in the branches of a conditional

Generation never looks at the facts that are known: it adds to them and copies them into obligations. So a run
does the same whatever was known before it, and what was known before stands in front of all that it adds: a
run from a state without these facts follows it (`underBond`). It follows what is known in the branches of a
conditional and after it (`Generation.command_facts`). -/

namespace Verdict

/-! ### Facts in front -/

/-- The state in which further facts are known, before all others. -/
def SymState.under (F : List Formula) (s : SymState) : SymState := { s with facts := F ++ s.facts }

/-- The obligation with further assumptions, before all others. -/
def Obligation.under (F : List Formula) (o : Obligation) : Obligation :=
  { o with assumptions := F ++ o.assumptions }

/-- The first run knows `F` before all else, and so do the obligations that it adds to those at the start. -/
def underBond (F : List Formula) (start : List Obligation) : Bond where
  facts fs fs' := fs = F ++ fs'
  alikes as as' := as' = as
  obligations os os' := ∃ new, os = start ++ new.map (Obligation.under F) ∧ os' = start ++ new
  shares _ := True
  learn f h := by rw [h, List.append_assoc]
  note bs h := by rw [h]
  emit := by
    rintro _ _ ⟨i, _, _, _, _, _, _, _⟩ o ⟨new, rfl, rfl⟩ ⟨rfl, rfl, rfl, rfl, rfl, rfl⟩ hi ho rfl -
    refine ⟨new ++ [o], ?_, by simp⟩
    have hindex : i = o.index := by simpa [ho] using hi
    simp [Obligation.under, hindex]

namespace Generation

open GenM Bond

variable {ctx : GenContext} {s : SymState} {subject : Subject} {F : List Formula}
  {start : List Obligation}

theorem joins_under (F : List Formula) (g : Generator) : (underBond F g.obligations).Joins g g :=
  ⟨g.alikes, g.obligations, rfl, rfl, [], by simp, by simp⟩

/-- A state without the facts that are known in it. -/
theorem twins_under (F : List Formula) (s : SymState) :
    (underBond F start).Twins { s with facts := F } { s with facts := [] } :=
  ⟨[], (List.append_nil F).symm, rfl⟩

theorem callsFollow_under : CallsFollow (underBond F start) ctx ctx.modes :=
  ⟨fun _ _ => trivial, fun _ nodes hs => follows_calls trivial rfl nodes hs⟩

theorem loopFollows_under (p : Frame × Command) : LoopFollows (underBond F start) ctx ctx.modes p.1 p.2 :=
  loopFollows_of_calls callsFollow_under rfl (fun _ _ => trivial) p.1 p.2

theorem follows_block_under (start : List Obligation) (F : List Formula) (s : SymState)
    (b : List Command) :
    (underBond F start).Follows (block ctx { s with facts := F } b) (block ctx { s with facts := [] } b)
      (underBond F start).Twins :=
  follows_block callsFollow_under b (fun p _ => loopFollows_under p) rfl (twins_under F s)

/-- What is known before a command is known after it. -/
theorem facts_of_run {c : Command} {s' : SymState} {g g' : Generator}
    (h : Gives (run ctx s ⟨c.origin, c.print⟩ c) g s' g') : s.facts <+: s'.facts := by
  obtain ⟨_, _, -, ⟨fs, hfs, -⟩, -⟩ := follows_run callsFollow_under c
    (fun p _ => loopFollows_under p) rfl (twins_under s.facts s) (joins_under s.facts g) h
  exact ⟨fs, hfs.symm⟩

end Generation

/-! ### Branches -/

/-- The facts of a list, without those that are literally true. -/
def knownFacts (fs : List Formula) : List Formula := fs.filter fun f => !f.isTrue

theorem SymState.assume_eq (s : SymState) (f : Formula) :
    s.assume f = { s with facts := s.facts ++ knownFacts [f] } := by
  unfold assume knownFacts
  cases h : f.isTrue <;> simp [h]

theorem knownFacts_cons (f : Formula) (fs : List Formula) :
    knownFacts (f :: fs) = knownFacts [f] ++ knownFacts fs := by
  unfold knownFacts
  rw [← List.filter_append]
  rfl

/-- The blocks of a conditional, each with what is true where it is run: no condition before it holds, and
its own does. -/
def Branches.arms (m : Substitution) : Branches → List (List Formula × List Command)
  | .otherwise b => [([], b)]
  | .branch c b rest =>
    ([c.subst m], b) :: (rest.arms m).map fun arm => ((c.subst m).negate :: arm.1, arm.2)

namespace Generation

open GenM

variable {ctx : GenContext} {s : SymState} {subject : Subject} {b : List Command}
  {arms : List (List Formula × List Command)}

/-- Whether a block is run where the facts `F` are known. Its obligations are those of the block where
nothing is known before it, with `F` before their assumptions. -/
def RunsUnder (ctx : GenContext) (s : SymState) (F : List Formula) (b : List Command)
    (g g' : Generator) : Prop :=
  ∃ (t : SymState) (os : List Obligation),
    Gives (block ctx { s with facts := F } b) g (t.under F) g' ∧
    g'.obligations = g.obligations ++ os.map (Obligation.under F) ∧
    Gives (block ctx { s with facts := [] } b) g t { g' with obligations := g.obligations ++ os }

/-- Whether only side conditions are added, which assume all facts of a state before anything else. -/
def AddsSideConditions (s : SymState) (g g' : Generator) : Prop :=
  ∃ os, g'.obligations = g.obligations ++ os ∧
    ∀ o ∈ os, o.kind.isSideCondition = true ∧ s.facts <+: o.assumptions

/-- Whether the blocks of a conditional are run in turn, each after the side conditions of its condition. -/
inductive ArmsRun (ctx : GenContext) (s : SymState) :
    List (List Formula × List Command) → Generator → Generator → Prop
  | nil {g g' : Generator} (h : g'.obligations = g.obligations) : ArmsRun ctx s [] g g'
  | cons {fs : List Formula} {b : List Command} {arms : List (List Formula × List Command)}
      {g g₁ g₂ g' : Generator} (side : AddsSideConditions s g g₁)
      (run : RunsUnder ctx s (s.facts ++ knownFacts fs) b g₁ g₂) (rest : ArmsRun ctx s arms g₂ g') :
      ArmsRun ctx s ((fs, b) :: arms) g g'

variable {s' : SymState} {g g₁ g' : Generator}

theorem runsUnder_of_gives {F : List Formula}
    (h : Gives (block ctx { s with facts := F } b) g s' g') : RunsUnder ctx s F b g g' := by
  obtain ⟨_, _, hrun, ⟨fs, hfs, rfl⟩, _, _, rfl, rfl, os, hos, rfl⟩ :=
    follows_block_under _ F s b (joins_under F g) h
  have hs' : ({ s' with facts := fs } : SymState).under F = s' := by
    obtain ⟨_, _, _⟩ := s'
    cases hfs
    rfl
  exact ⟨{ s' with facts := fs }, os, hs'.symm ▸ h, hos, hrun⟩

theorem ArmsRun.after (h : ArmsRun ctx s arms g g₁) (hobl : g'.obligations = g₁.obligations) :
    ArmsRun ctx s arms g g' := by
  induction h with
  | nil h => exact .nil (hobl.trans h)
  | cons side run _ ih => exact .cons side run (ih hobl)

/-- What a state assumes is true in all blocks that are run in it. -/
theorem ArmsRun.of_assume {f : Formula} (h : ArmsRun ctx (s.assume f) arms g g') :
    ArmsRun ctx s (arms.map fun arm => (f :: arm.1, arm.2)) g g' := by
  rw [SymState.assume_eq] at h
  induction h with
  | nil h => exact .nil h
  | cons side run _ ih =>
    obtain ⟨os, hos, hside⟩ := side
    refine .cons ⟨os, hos, fun o ho => ⟨(hside o ho).1, ?_⟩⟩ ?_ ih
    · exact (List.prefix_append _ _).trans (hside o ho).2
    · rw [knownFacts_cons, ← List.append_assoc]
      exact run

theorem AddsSideConditions.trans (h : AddsSideConditions s g g₁) (h' : AddsSideConditions s g₁ g') :
    AddsSideConditions s g g' := by
  obtain ⟨os, hos, hside⟩ := h
  obtain ⟨os', hos', hside'⟩ := h'
  refine ⟨os ++ os', by rw [hos', hos, List.append_assoc], fun o ho => ?_⟩
  exact (List.mem_append.mp ho).elim (hside o) (hside' o)

theorem addsSideConditions_of_eq (h : g'.obligations = g.obligations) : AddsSideConditions s g g' :=
  ⟨[], by simp [h], by simp⟩

theorem addsSideConditions_emitChecks {cs : List Check} {u : Unit}
    (h : Gives (emitChecks ctx s subject cs) g u g') : AddsSideConditions s g g' := by
  obtain ⟨os, hos, hall⟩ := receives_emitChecks h
  have hside : List.Forall₂
      (fun o _ => (o.kind.isSideCondition = true ∧ s.facts <+: o.assumptions) ∧ True) os _ :=
    hall.flip.imp fun o c ho => ⟨⟨ho.kind ▸ rfl, ho.assumptions ▸ List.prefix_rfl⟩, trivial⟩
  exact ⟨os, hos.obligations, ((List.forall₂_and_left os _).mp hside).1⟩

/-- Without contracts, nothing is learned from the evaluation of a formula. -/
theorem of_formula_uninterpreted {f : Formula} {r : Formula × SymState}
    (hmode : ctx.modes.calls = .uninterpreted) (h : Gives (formula ctx s subject f) g r g') :
    r = (f.subst s.values, s) ∧ AddsSideConditions s g g' := by
  unfold formula conditionsOfFormula calls at h
  simp only [hmode] at h
  obtain ⟨s₁, g₁, hconditions, hsubst⟩ := h.bind
  obtain ⟨e, g₂, h₂, hchecks⟩ := hconditions.bind
  obtain ⟨_, g₃, h₃, hcalls⟩ := hchecks.bind
  obtain ⟨rfl, rfl⟩ := gives_pure hcalls
  obtain ⟨f', g₄, h₄, hend⟩ := hsubst.bind
  obtain ⟨rfl, rfl⟩ := gives_pure hend
  obtain ⟨rfl, -, -, hobl, -⟩ := of_substFormula h₄
  have hencoded := addsSideConditions_of_eq (s := s₁) (congrArg Generator.obligations (of_encoded h₂).2)
  exact ⟨rfl, (hencoded.trans (addsSideConditions_emitChecks h₃)).trans (addsSideConditions_of_eq hobl)⟩

theorem merge_leaves {cond : Formula} {t e : SymState} (h : Gives (merge cond t e s) g s' g') :
    s'.facts = s.facts ∧ g'.obligations = g.obligations := by
  obtain ⟨_, g₁, h₁, h₂⟩ := h.bind
  have hup := (of_mergeValues h₂).1
  exact ⟨hup.facts, hup.obligations.trans (same_noteLoss h₁).obligations⟩

/-- The first block of a conditional is run where its condition is known, and the others where its negation
is. -/
theorem of_branch {c : Formula} {rest : Branches} (hmode : ctx.modes.calls = .uninterpreted)
    (h : Gives (alternative ctx s subject (.branch c b rest)) g s' g') :
    s'.facts = s.facts ∧ ∃ g₁ g₂ g₃ e, AddsSideConditions s g g₁ ∧
      RunsUnder ctx s (s.facts ++ knownFacts [c.subst s.values]) b g₁ g₂ ∧
      Gives (alternative ctx (s.assume (c.subst s.values).negate) subject rest) g₂ e g₃ ∧
      g'.obligations = g₃.obligations := by
  obtain ⟨r, g₁, h₁, h⟩ := h.bind
  obtain ⟨rfl, hside⟩ := of_formula_uninterpreted hmode h₁
  obtain ⟨t, g₂, h₂, h⟩ := h.bind
  obtain ⟨e, g₃, h₃, h₄⟩ := h.bind
  obtain ⟨hfacts, hobl⟩ := merge_leaves h₄
  rw [SymState.assume_eq] at h₂
  exact ⟨hfacts, g₁, g₂, g₃, e, hside, runsUnder_of_gives h₂, h₃, hobl⟩

theorem armsRun_otherwise (h : Gives (block ctx s b) g s' g₁)
    (hobl : g'.obligations = g₁.obligations) (m : Substitution) :
    ArmsRun ctx s (Branches.arms m (.otherwise b)) g g' := by
  refine .cons (addsSideConditions_of_eq rfl) ?_ (.nil hobl)
  rw [show s.facts ++ knownFacts [] = s.facts by simp [knownFacts]]
  exact runsUnder_of_gives h

/-- The further branches of a conditional are run in the order in which they are written. -/
theorem armsRun_alternative (hmode : ctx.modes.calls = .uninterpreted) (bs : Branches)
    {s s' : SymState} {g g' : Generator} (h : Gives (alternative ctx s subject bs) g s' g') :
    ArmsRun ctx s (bs.arms s.values) g g' := by
  match bs with
  | .otherwise b => exact armsRun_otherwise (by simpa only [alternative] using h) rfl _
  | .branch c b rest =>
    obtain ⟨-, g₁, g₂, g₃, e, hside, hrun, hrest, hobl⟩ := of_branch hmode h
    have harms := armsRun_alternative hmode rest hrest
    rw [SymState.assume_values] at harms
    exact .cons hside hrun (harms.of_assume.after hobl)

theorem armsRun_conditional (hmode : ctx.modes.calls = .uninterpreted) {bs : Branches}
    (h : Gives (conditional ctx s subject bs) g s' g') :
    s'.facts = s.facts ∧ ArmsRun ctx s (bs.arms s.values) g g' := by
  match bs with
  | .otherwise b =>
    obtain ⟨e, g₁, h₁, h₂⟩ := h.bind
    obtain ⟨_, g₂, h₃, h₄⟩ := h₂.bind
    obtain ⟨rfl, rfl⟩ := gives_pure h₄
    exact ⟨(foldl_set_rest e _ s).1, armsRun_otherwise h₁ (same_noteLoss h₃).obligations _⟩
  | .branch c b rest =>
    rw [conditional_branch] at h
    exact ⟨(of_branch hmode h).1, armsRun_alternative hmode _ h⟩

/-- Without contracts, the same facts are known after a conditional as before it, and each of its blocks is
run where these are known, that no condition before holds and that its own does; its obligations assume
this before anything that is learned in the block. After any command all is known that is known before. -/
theorem command_facts {c : Command} (hmode : ctx.modes.calls = .uninterpreted)
    (h : Gives (command ctx s c) g s' g') :
    (∀ bs o, c = .cond bs o → s'.facts = s.facts ∧ ArmsRun ctx s (bs.arms s.values) g g') ∧
      s.facts <+: s'.facts := by
  obtain ⟨frame, s₁, rfl, h₁⟩ := of_command h
  refine ⟨?_, ?_⟩
  · rintro bs o rfl
    obtain ⟨hfacts, harms⟩ := armsRun_conditional hmode h₁
    exact ⟨hfacts, harms⟩
  · have hfacts := facts_of_run h₁
    exact hfacts

/-- Nothing is known of calls. -/
def plainCalls : GenContext := { plainContext with modes := ⟨.total, .uninterpreted⟩ }

def below (x : String) (n : Int32) : Formula := .compare .lt (.value (.var x)) (.num n)

/-- Two conditions and no other case. In the first block a loop is run, in the second something is
assumed, and in the last one `x` is too great. -/
def threeWays : Branches :=
  .branch (below "x" 0) [.whileLoop (below "y" 9) (.lit true) none
      [.assign ⟨.name "y" none, .int 9, none⟩] none]
    (.branch (below "x" 5) [.assume (below "y" 7) none, .assert (below "y" 8) none]
      (.otherwise [.assert (below "x" 5) none]))

theorem command_facts_threeWays :
    ∃ s' g', Gives (command plainCalls { twoVariables with facts := [below "a" 6] }
        (.cond threeWays none)) oneSymbol s' g' ∧
      s'.facts = [below "a" 6] ∧
      ArmsRun plainCalls { twoVariables with facts := [below "a" 6] }
        (threeWays.arms twoVariables.values) oneSymbol g' := by
  obtain ⟨s', g', hgives, -⟩ := exists_gives (fun _ => ())
    (show ((command plainCalls { twoVariables with facts := [below "a" 6] }
      (.cond threeWays none)).run oneSymbol).toOption.map _ = some () by cbv)
  obtain ⟨hfacts, harms⟩ := (command_facts rfl hgives).1 threeWays none rfl
  exact ⟨s', g', hgives, hfacts, harms⟩

end Generation

end Verdict
