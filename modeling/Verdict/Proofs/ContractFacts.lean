import Verdict.Proofs.BranchFacts
import Verdict.Proofs.CallModes
import Verdict.Proofs.Contracts

/-! # Where the promises of callees are known

When a value or formula is evaluated, the obligations for its side conditions are added first, and only then
are the contracts of its calls used. So its side conditions assume what was known before, and nothing that
its callees promise. What they promise is known from then on: it stands among the assumptions of all
obligations that are added later on, the side conditions among them (`Generation.conditions_know_contracts`).

In particular, a division by the result of a call cannot be shown to be defined from the postcondition of the
callee, unless the same call has been evaluated before (`Function.quotient_lacks_contract`). -/

namespace Verdict

/-- Whether a value stands for another one: the same, or the same with numbers for what is missing in it. -/
def Value.KeptAs (v w : Value) : Prop := w = v ∨ v.isWhole = false ∧ ∃ n, w = (v.number.run n).1

/-- Whether a formula is what the contract of a function promises of a call, where the variables have the
values of a substitution. -/
def Function.Assures (callee : Function) (σ : Substitution) (c : Generation.Call) (fact : Formula) : Prop :=
  ∃ args r, List.Forall₂ (fun v w => (v.subst σ).KeptAs w) c.args args ∧
    (Value.call callee.name args none).KeptAs r ∧
    fact = callee.postcondition.subst ((Generation.argumentMap callee.inputs args).insert resultName r)

inductive Evaluable where
  | value (v : Value)
  | formula (f : Formula)

namespace Evaluable

/-- The calls outside quantifiers. -/
def calls : Evaluable → List Generation.Call
  | .value v => (v.visit Frame.outsideQuantifiers).filterMap Generation.call?
  | .formula f => (f.visit Frame.outsideQuantifiers).filterMap Generation.call?

/-- Whether some side conditions are those of an evaluation in a scope. -/
def Needs (Γ : Scope) (checks : List Check) : Evaluable → Prop
  | .value v => ((Generation.valueChecks (.ofScope Γ) v).run.run default).1 = .ok checks
  | .formula f => ∃ r, ((Encoding.formula (.ofScope Γ) f).run.run default).1 = .ok r ∧ r.checks = checks

end Evaluable

/-- Whether all obligations that a step adds assume a formula. -/
def GenM.Assumes {α : Type} (m : GenM α) (fact : Formula) : Prop :=
  ∀ ⦃g a g'⦄, m.Gives g a g' → ∃ os, g'.obligations = g.obligations ++ os ∧ ∀ o ∈ os, fact ∈ o.assumptions

variable {fact : Formula}

theorem GenM.assumes_of_follows {α β : Type} {m : GenM α} {m' : GenM β} {F : List Formula}
    {R : List Obligation → α → β → Prop} (h : ∀ start, (underBond F start).Follows m m' (R start))
    (hfact : fact ∈ F) : m.Assumes fact := by
  intro g a g' ha
  obtain ⟨_, _, -, -, _, _, -, -, os, hos, -⟩ := h g.obligations (Generation.joins_under F g) ha
  refine ⟨_, hos, fun o ho => ?_⟩
  obtain ⟨q, -, rfl⟩ := List.mem_map.mp ho
  exact List.mem_append_left _ hfact

namespace Generation

open GenM

variable {ctx : GenContext} {s s' : SymState} {subject : Subject} {g g' : Generator}

/-- Adds the obligations of an evaluation. -/
def conditions (ctx : GenContext) (s : SymState) (subject : Subject) : Evaluable → GenM SymState
  | .value v => conditionsOfValue ctx s subject v
  | .formula f => conditionsOfFormula ctx s subject f

/-! ### What a call promises -/

theorem keptAs_of_keep {v w : Value} (h : Gives (keep v) g w g') : v.KeptAs w := by
  have hk := h.modifyGet
  split_ifs at hk with hwhole
  · cases hk
    exact .inl rfl
  · rw [Bool.or_eq_true, not_or, Bool.not_eq_true, Bool.not_eq_true] at hwhole
    cases hk
    exact .inr ⟨hwhole.2, g.made, rfl⟩

theorem keptAs_of_substValue {m : Substitution} {v w : Value} (h : Gives (substValue m v) g w g') :
    (v.subst m).KeptAs w := by
  obtain ⟨_, g₁, -, hkeep⟩ := (afterRequire h).bind
  exact keptAs_of_keep hkeep

theorem keptAs_of_substValues {m : Substitution} {vs ws : List Value}
    (h : Gives (substValues m vs) g ws g') : List.Forall₂ (fun v w => (v.subst m).KeptAs w) vs ws := by
  induction vs generalizing g ws with
  | nil =>
    obtain ⟨rfl, -⟩ := gives_pure h
    exact .nil
  | cons v vs ih =>
    obtain ⟨w, g₁, h₁, h⟩ := h.bind
    obtain ⟨ws, g₂, h₂, h₃⟩ := h.bind
    obtain ⟨rfl, rfl⟩ := gives_pure h₃
    exact .cons (keptAs_of_substValue h₁) (ih h₂)

/-- The replacements for the inputs of a callee have the same names as its inputs on entry. -/
theorem contains_argumentMap {f : Function} {args : List Value} (hlen : f.inputs.length = args.length)
    (x : String) : (argumentMap f.inputs args).contains x = f.entryVars.contains x := by
  have hfold : ∀ (ds : List Declaration) (vs : List Value) (m : Substitution) (types : NameMap Ty),
      ds.length = vs.length → m.contains x = types.contains x →
      ((ds.zip vs).foldl (fun m p => (m.insert p.1.name p.2).insert (oldName p.1.name) p.2) m).contains x =
        (ds.foldl (fun m d => (m.insert d.name d.type).insert (oldName d.name) d.type) types).contains x := by
    intro ds
    induction ds with
    | nil => exact fun vs m types _ h => by simpa using h
    | cons d ds ih =>
      intro vs m types hlen h
      obtain _ | ⟨v, vs⟩ := vs
      · cases hlen
      · refine ih vs _ _ (by simpa using hlen) ?_
        simp only [NameMap.contains, NameMap.get?_insert] at h ⊢
        split_ifs <;> simp [h]
  exact hfold f.inputs args .empty .empty hlen rfl

theorem postKnown_iff {f : Function} {args : List Value} (hlen : f.inputs.length = args.length) :
    f.PostKnown ↔ (f.postcondition.freeVars.members.all fun x =>
      (argumentMap f.inputs args).contains x || x == resultName) = true := by
  simp only [List.all_eq_true, Bool.or_eq_true, beq_iff_eq, contains_argumentMap hlen, NameMap.contains_iff]
  exact forall₂_congr fun x _ => or_comm

/-- After the use of a contract, what it promises is known. -/
theorem assures_of_contract {c : Call} {callee : Function}
    (hcallee : (ctx.functions.find? fun f => f.name == c.function) = some callee) (hknown : callee.PostKnown)
    (h : Gives (contract ctx s subject c) g s' g') :
    ∃ fact, callee.Assures s.values c fact ∧ s' = s.assume fact := by
  have hname : callee.name = c.function := by simpa using List.find?_some hcallee
  unfold contract at h
  rw [hcallee] at h
  dsimp only at h
  split_ifs at h with hlen
  · exact absurd h not_gives_fault
  obtain ⟨args, g₁, h₁, h⟩ := h.bind
  obtain ⟨pre, g₂, h₂, h⟩ := h.bind
  obtain ⟨_, g₃, h₃, h⟩ := h.bind
  have hargs := keptAs_of_substValues h₁
  have hall := (postKnown_iff ((not_not.mp hlen).trans hargs.length_eq)).mp hknown
  rw [if_pos hall] at h
  obtain ⟨r, g₄, h₄, h⟩ := h.bind
  obtain ⟨post, g₅, h₅, h⟩ := h.bind
  obtain ⟨rfl, -⟩ := gives_pure h
  obtain ⟨-, rfl⟩ := receives_substFormula h₅
  exact ⟨_, ⟨args, r, hargs, hname ▸ keptAs_of_keep h₄, rfl⟩, rfl⟩

/-- After the use of several contracts, what they promise is known. The values of variables stay the same, so
that it does not matter in which order they are used. -/
theorem assures_of_contracts {cs : List Call} (h : Gives (contracts ctx subject s cs) g s' g') {c : Call}
    (hc : c ∈ cs) {callee : Function}
    (hcallee : (ctx.functions.find? fun f => f.name == c.function) = some callee)
    (hknown : callee.PostKnown) :
    ∃ fact, callee.Assures s.values c fact ∧ (fact.isTrue = false → fact ∈ s'.facts) := by
  induction cs generalizing s g with
  | nil => cases hc
  | cons d cs ih =>
    obtain ⟨s₁, g₁, h₁, h₂⟩ := h.bind
    rcases List.mem_cons.mp hc with rfl | hc
    · obtain ⟨fact, hfact, rfl⟩ := assures_of_contract hcallee hknown h₁
      refine ⟨fact, hfact, fun hfalse => ?_⟩
      obtain ⟨fs, os, rfl, -, -⟩ := contracted_contracts h₂ 0
      exact List.mem_append_left _ (SymState.self_mem_facts_assume (by simp [hfalse]))
    · obtain ⟨fs, os, rfl, -, -⟩ := contracted_contract h₁ 0
      obtain ⟨fact, hfact, hmem⟩ := ih h₂ hc
      exact ⟨fact, hfact, hmem⟩

/-! ### Evaluation -/

/-- An evaluation adds the side conditions and then uses the contracts of the calls. -/
theorem steps_of_conditions {n : Evaluable} (hmode : ctx.modes.calls = .contracts)
    (h : Gives (conditions ctx s subject n) g s' g') :
    ∃ checks g₁ g₂, n.Needs (programScope ctx s) checks ∧
      Gives (emitChecks ctx s subject checks) g () g₁ ∧
      Gives (contracts ctx subject s n.calls.reverse) g₁ s' g₂ ∧ g' = { g₂ with made := g₁.made } := by
  have hsteps {checks : List Check} {nodes : List Node} {k : Generator}
      (hk : Gives (emitChecks ctx s subject checks >>= fun _ => calls ctx s subject nodes) k s' g') :
      ∃ g₁ g₂, Gives (emitChecks ctx s subject checks) k () g₁ ∧
        Gives (contracts ctx subject s (nodes.filterMap call?).reverse) g₁ s' g₂ ∧
          g' = { g₂ with made := g₁.made } := by
    obtain ⟨_, g₁, hemit, hlearn⟩ := hk.bind
    unfold calls at hlearn
    rw [hmode] at hlearn
    obtain ⟨g₂, hcontracts, hmade⟩ := of_aside hlearn
    exact ⟨g₁, g₂, hemit, hcontracts, hmade⟩
  cases n with
  | value v =>
    obtain ⟨checks, g₀, hchecks, hrest⟩ := h.bind
    obtain ⟨hok, rfl⟩ := hchecks.ofFault
    obtain ⟨g₁, g₂, hrun⟩ := hsteps hrest
    exact ⟨checks, g₁, g₂, hok, hrun⟩
  | formula f =>
    obtain ⟨r, g₀, hchecks, hrest⟩ := h.bind
    obtain ⟨hok, rfl⟩ := hchecks.ofFault
    obtain ⟨g₁, g₂, hrun⟩ := hsteps hrest
    exact ⟨r.checks, g₁, g₂, ⟨r, hok, rfl⟩, hrun⟩

/-- What is known before an evaluation or a block is assumed by all obligations that it adds. -/
theorem assumes_conditions {t : SymState} (hfact : fact ∈ t.facts) (subject : Subject)
    (n : Evaluable) : (conditions ctx t subject n).Assumes fact := by
  cases n with
  | value v =>
    exact assumes_of_follows (F := t.facts)
      (fun _ => follows_conditionsOfValue callsFollow_under v (twins_under t.facts t)) hfact
  | formula f =>
    exact assumes_of_follows (F := t.facts)
      (fun _ => follows_conditionsOfFormula callsFollow_under f (twins_under t.facts t)) hfact

theorem assumes_block {t : SymState} (hfact : fact ∈ t.facts) (cs : List Command) :
    (block ctx t cs).Assumes fact :=
  assumes_of_follows (fun start => follows_block_under start t.facts t cs) hfact

/-- With contracts, the side conditions of an evaluation assume exactly what is known before it. After it,
what the contracts of its calls promise is known, unless that is literally true. Then it is assumed by every
obligation of what is evaluated or run where the same is known, and so by the side conditions of all that
comes after it. -/
theorem conditions_know_contracts (hmode : ctx.modes.calls = .contracts) {n : Evaluable}
    (h : Gives (conditions ctx s subject n) g s' g') :
    (∃ checks sides pres, n.Needs (programScope ctx s) checks ∧
      g'.obligations = g.obligations ++ (sides ++ pres) ∧
      Obligation.AskAll ctx.function subject s.facts s.values checks sides ∧
      ∀ o ∈ pres, o.kind = .precondition) ∧
    ∀ c ∈ n.calls, ∀ callee, (ctx.functions.find? fun f => f.name == c.function) = some callee →
      callee.PostKnown → ∃ fact, callee.Assures s.values c fact ∧ (fact.isTrue = false →
        fact ∈ s'.facts ∧ ∀ t : SymState, s'.facts ⊆ t.facts →
          (∀ subject m, (conditions ctx t subject m).Assumes fact) ∧
          ∀ cs, (block ctx t cs).Assumes fact) := by
  obtain ⟨checks, g₁, g₂, hneeds, hemit, hcontracts, rfl⟩ := steps_of_conditions hmode h
  obtain ⟨sides, hsides, hall⟩ := receives_emitChecks hemit
  obtain ⟨-, pres, -, hpres, hreceives⟩ := contracted_contracts hcontracts 0
  refine ⟨⟨checks, sides, pres, hneeds, ?_, hall, hpres⟩, fun c hc callee hcallee hknown => ?_⟩
  · rw [← List.append_assoc, ← hsides.obligations]
    exact hreceives.obligations
  · obtain ⟨fact, hfact, hmem⟩ :=
      assures_of_contracts hcontracts (List.mem_reverse.mpr hc) hcallee hknown
    refine ⟨fact, hfact, fun hfalse => ⟨hmem hfalse, fun t ht => ?_⟩⟩
    exact ⟨assumes_conditions (ht (hmem hfalse)), assumes_block (ht (hmem hfalse))⟩

end Generation

/-! ### A division by the result of a call -/

/-- Returns one, and says so. -/
def one : Function where
  name := "one"
  inputs := []
  output := .i32
  precondition := .lit true
  postcondition := .equal (.value (.var resultName)) (.num 1)
  result := .int 1
  body := []
  origin := none

/-- Ten divided by the result of `one`. -/
def tenth : Value := .expr (.op .div (.num 10) (.value (.call "one" [] none))) none

/-- Divides by the result of `one`. -/
def quotientFn : Function where
  name := "quotient"
  inputs := []
  output := .unit
  precondition := .lit true
  postcondition := .lit true
  result := .unit none
  body := [.bind ⟨"x", .i32, false, none⟩ tenth]
  origin := none

/-- The postcondition of `one` at its call. -/
def oneIsOne : Formula := .equal (.value (.call "one" [] none)) (.num 1)

theorem postKnown_one : one.PostKnown := by
  intro x hx
  have hnames : one.postcondition.freeVars.members = [resultName] := by cbv
  rw [hnames] at hx
  exact .inl (List.mem_singleton.mp hx)

theorem assures_one : one.Assures .empty ⟨"one", [], none⟩ oneIsOne := by
  refine ⟨[], .call "one" [] none, .nil, .inl rfl, ?_⟩
  cbv

namespace Generation

open GenM

def atStart : SymState := ⟨⟨[one, quotientFn], [], [], [], .empty⟩, .empty, []⟩

/-- Before `tenth` nothing is known, which is all that its side condition assumes. After it, it is known that
`one` returns one, and whatever comes next assumes it. -/
theorem conditions_know_contracts_tenth : ∃ s' g',
    Gives (conditions (contextOf .standard [one, quotientFn] quotientFn) atStart ⟨none, ""⟩ (.value tenth))
      default s' g' ∧ s'.facts = [oneIsOne] ∧
    (∃ checks sides pres, (Evaluable.value tenth).Needs
        (programScope (contextOf .standard [one, quotientFn] quotientFn) atStart) checks ∧
      g'.obligations = sides ++ pres ∧
      Obligation.AskAll "quotient" ⟨none, ""⟩ [] .empty checks sides ∧ ∀ o ∈ pres, o.kind = .precondition) ∧
    ∃ fact, one.Assures .empty ⟨"one", [], none⟩ fact ∧ (fact.isTrue = false → fact ∈ s'.facts ∧
      ∀ t : SymState, s'.facts ⊆ t.facts →
        (∀ subject m, (conditions (contextOf .standard [one, quotientFn] quotientFn) t subject m).Assumes fact) ∧
        ∀ cs, (block (contextOf .standard [one, quotientFn] quotientFn) t cs).Assumes fact) := by
  obtain ⟨s', g', hgives, hfacts⟩ := exists_gives SymState.facts
    (show ((conditions (contextOf .standard [one, quotientFn] quotientFn) atStart ⟨none, ""⟩
      (.value tenth)).run default).toOption.map _ = some [oneIsOne] by cbv)
  obtain ⟨hsides, hpromises⟩ := conditions_know_contracts rfl hgives
  have hcalls : (Evaluable.value tenth).calls = [⟨"one", [], none⟩] := by cbv
  exact ⟨s', g', hgives, hfacts, hsides,
    hpromises ⟨"one", [], none⟩ (by simp [hcalls]) one (by cbv) postKnown_one⟩

end Generation

/-- The only obligation of `quotientFn` is that the result of `one` is not zero. It does not assume what the
contract of `one` promises, from which it would follow, and it is not true whatever `one` means. -/
theorem Function.quotient_lacks_contract : ∃ o, quotientFn.obligations .standard [one, quotientFn] = .ok [o] ∧
    o.kind = .sideCondition .divisionByZero ∧ one.PostKnown ∧
    one.Assures .empty ⟨"one", [], none⟩ oneIsOne ∧ oneIsOne ∉ o.assumptions ∧
    (∃ I ρ, ¬ o.HoldsAt I ρ) ∧
    ∀ I ρ, Obligation.HoldsAt I ρ { o with assumptions := oneIsOne :: o.assumptions } := by
  obtain ⟨os, hos, hview⟩ : ∃ os, quotientFn.obligations .standard [one, quotientFn] = .ok os ∧
      os.map (fun o => (o.kind, o.assumptions, o.goal)) = [(.sideCondition .divisionByZero, [],
        .not (.equal (.value (.call "one" [] none)) (.num 0)))] :=
    Function.obligations_of_view _ (by cbv)
  obtain ⟨o, rfl, ho⟩ := List.map_eq_singleton_iff.mp hview
  simp only [Prod.mk.injEq] at ho
  obtain ⟨hkind, hassumptions, hgoal⟩ := ho
  refine ⟨o, hos, hkind, postKnown_one, assures_one, by simp [hassumptions], ?_, fun I ρ h => ?_⟩
  · refine ⟨.plain (fun _ _ => .int 0) fun _ _ => 0, fun _ => .int 0, fun h => ?_⟩
    -- Nothing is assumed, so `one` may as well return zero.
    have hgoal' := h (by simp [hassumptions])
    rw [hgoal] at hgoal'
    exact hgoal' rfl
  · have hone : I.call "one" [] = .int 1 := h oneIsOne List.mem_cons_self
    change o.goal.Holds I ρ
    rw [hgoal]
    intro hzero
    have hcall : I.call "one" [] = .int 0 := hzero
    rw [hone] at hcall
    cases hcall

end Verdict
