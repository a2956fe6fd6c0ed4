import Verdict.Proofs.Framing

/-! # Side conditions and well-definedness

Evaluating a value, a formula or an integer expression adds its side conditions before anything else, each
under the facts of the state. If they are true, then what is evaluated is well-defined for every meaning of
the symbolic constants for which the facts are true (`Generation.defined_of_sideConditions`). Values of
type unit are left out: nothing is added for them, not even for the arguments of a call
(`Generation.not_defined_of_unit`). -/

namespace Verdict

/-! ### What is added -/

namespace Generator

variable {g g₁ g' : Generator}

/-- The obligations of a later generator that an earlier one does not have. -/
def added (g g' : Generator) : List Obligation := g'.obligations.drop g.obligations.length

/-- The pairs of values that a later generator takes for one another and an earlier one does not. -/
def addedAlikes (g g' : Generator) : List Alike := g'.alikes.drop g.alikes.length

theorem mem_drop_of_prefix {α : Type} {l m l' : List α} (h : l <+: m) (h' : m <+: l') {a : α}
    (ha : a ∈ m.drop l.length) : a ∈ l'.drop l.length := by
  obtain ⟨k, rfl⟩ := h
  obtain ⟨k', rfl⟩ := h'
  rw [List.drop_left] at ha
  rw [List.append_assoc, List.drop_left]
  exact List.mem_append_left _ ha

/-- What is added on the way has been added at the end. -/
theorem Grows.mem_added (h : g.Grows g₁) (h' : g₁.Grows g') {o : Obligation}
    (ho : o ∈ g.added g₁) : o ∈ g.added g' :=
  mem_drop_of_prefix h.obligations h'.obligations ho

theorem Grows.mem_addedAlikes (h : g.Grows g₁) (h' : g₁.Grows g') {a : Alike}
    (ha : a ∈ g.addedAlikes g₁) : a ∈ g.addedAlikes g' :=
  mem_drop_of_prefix h.alikes h'.alikes ha

theorem mem_drop_of_drop {α : Type} {l m l' : List α} (h : l <+: m) {a : α}
    (ha : a ∈ l'.drop m.length) : a ∈ l'.drop l.length := by
  have hle := h.length_le
  rw [show m.length = l.length + (m.length - l.length) by omega, ← List.drop_drop] at ha
  exact List.mem_of_mem_drop ha

/-- What is added later has been added since any earlier time. -/
theorem Grows.mem_added_of_later (h : g.Grows g₁) {o : Obligation} (ho : o ∈ g₁.added g') :
    o ∈ g.added g' :=
  mem_drop_of_drop h.obligations ho

theorem Grows.mem_addedAlikes_of_later (h : g.Grows g₁) {a : Alike}
    (ha : a ∈ g₁.addedAlikes g') : a ∈ g.addedAlikes g' :=
  mem_drop_of_drop h.alikes ha

end Generator

namespace Generation

open GenM

variable {g g' : Generator}

variable {ctx : GenContext} {s : SymState} {subject : Subject}

/-! ### Side conditions that are true -/

/-- Whether the side conditions among obligations are true, whatever their symbolic constants denote. -/
def SideConditionsHold (I : Interp) (os : List Obligation) : Prop :=
  ∀ o ∈ os, o.kind.isSideCondition = true → o.Holds I

/-- A goal that is emitted as a side condition is true where the facts are, if the obligations that are
added are true. -/
theorem holds_of_emit {c : CheckKind} {goal : Formula} {u : Unit} {I : Interp} {ρ : Valuation}
    (h : Gives (emit ctx s (.sideCondition c) subject goal) g u g')
    (hside : SideConditionsHold I (g.added g')) (hρ : ρ.Fits g.symbols)
    (hfacts : ∀ f ∈ s.facts, f.Holds I ρ) : goal.Holds I ρ := by
  unfold emit at h
  split_ifs at h with htrue
  · exact Formula.holds_of_isTrue htrue
  · rw [h.modify] at hside
    simp only [SideConditionsHold, Generator.added, List.drop_left, List.mem_singleton,
      forall_eq] at hside
    exact (Obligation.holds_iff _).mp (hside rfl) ρ hρ hfacts

theorem alikes_of_substFormula {m : Substitution} {f f' : Formula}
    (h : Gives (substFormula m f) g f' g') :
    ∀ a ∈ f.alikes g.symbols m, a ∈ g.addedAlikes g' := by
  obtain ⟨_, g1, h1, h2⟩ := (afterRequire h).bind
  obtain ⟨-, rfl⟩ := gives_pure h2
  rw [h1.modify]
  simp [Generator.addedAlikes]

variable {R : Rules} {vars : NameMap Ty} {I : Interp} {ρ : Valuation} (hs : s.Typed R vars g)
  (hI : I.Regular R.calls) (hρ : ρ.Fits g.symbols) (hfacts : ∀ f ∈ s.facts, f.Holds I ρ)
include hs hI hρ hfacts

theorem holds_of_emitChecks {cs : List Check} {u : Unit}
    (htyped : ∀ c ∈ cs, c.cond.Typed R.bounds ⟨vars, R.calls⟩)
    (h : Gives (emitChecks ctx s subject cs) g u g') (hside : SideConditionsHold I (g.added g'))
    (halikes : ∀ a ∈ g.addedAlikes g', a.Same I) :
    ∀ c ∈ cs, c.cond.Holds I (s.values.valuation I ρ) := by
  induction cs generalizing g with
  | nil => exact fun c hc => nomatch hc
  | cons c cs ih =>
    obtain ⟨goal, g1, h1, h⟩ := h.bind
    obtain ⟨_, g2, h2, h3⟩ := h.bind
    obtain ⟨rfl, hgrow1, hsym1, -, -⟩ := of_substFormula h1
    obtain ⟨hgrow2, hsym2, -, -, -⟩ := of_emit h2
    have hgrow3 := (of_emitChecks h3).1
    intro c' hc'
    rcases List.mem_cons.mp hc' with rfl | hc'
    · have hgoal : (c'.cond.subst s.values).Holds I ρ := by
        refine holds_of_emit h2 (fun o ho => hside o ?_) (hsym1 ▸ hρ) hfacts
        exact hgrow1.mem_added_of_later (hgrow2.mem_added hgrow3 ho)
      have hm : s.Matches I vars g ρ (s.values.valuation I ρ) := ⟨hρ, fun _ _ _ => rfl, hfacts⟩
      refine (hm.holds_subst hs hI (htyped c' List.mem_cons_self) fun a ha => halikes a ?_).mp hgoal
      exact hgrow1.mem_addedAlikes (hgrow2.trans hgrow3) (alikes_of_substFormula h1 a ha)
    · refine ih (hs.grow (hgrow1.trans hgrow2)) (hsym2.trans hsym1 ▸ hρ)
        (fun c hc => htyped c (List.mem_cons_of_mem _ hc)) h3 ?_ ?_ c' hc'
      · exact fun o ho => hside o ((hgrow1.trans hgrow2).mem_added_of_later ho)
      · exact fun a ha => halikes a ((hgrow1.trans hgrow2).mem_addedAlikes_of_later ha)

/-- What is evaluated after its side conditions have been added is well-defined. -/
theorem defined_of_emitChecks {cs : List Check} {nodes : List Node} {s' : SymState}
    {defined : Valuation → Prop} (hcs : Faithful R.bounds I ⟨vars, R.calls⟩ cs defined)
    {g₁ : Generator}
    (h : Gives (emitChecks ctx s subject cs >>= fun _ => calls ctx s subject nodes) g s' g₁)
    (hlast : g₁.Grows g') (hside : SideConditionsHold I (g.added g'))
    (halikes : ∀ a ∈ g.addedAlikes g', a.Same I) : defined (s.values.valuation I ρ) := by
  obtain ⟨_, g2, h1, h2⟩ := h.bind
  have hgrow := (of_emitChecks h1).1
  have hlater := (leads_calls _ h2).1.trans hlast
  have hm : s.Matches I vars g ρ (s.values.valuation I ρ) := ⟨hρ, fun _ _ _ => rfl, hfacts⟩
  refine hcs.sound _ (hm.store_fits hs hI) (holds_of_emitChecks hs hI hρ hfacts hcs.typed h1 ?_ ?_)
  · exact fun o ho => hside o (hgrow.mem_added hlater ho)
  · exact fun a ha => halikes a (hgrow.mem_addedAlikes hlater ha)

omit hs hI hρ hfacts in
/-- If the side conditions that are added for a value, a formula or an integer expression are true, then
it is well-defined wherever the facts of the state are true, unless it is of type unit: no division by
zero and no element outside an array is evaluated, not in the arguments of calls either. -/
theorem defined_of_sideConditions (R : Rules) (ctx : GenContext) (vars : NameMap Ty) (s s' : SymState)
    (g g' : Generator) (subject : Subject) (hs : s.Typed R vars g) (hsees : Sees ctx R vars s)
    (I : Interp) (hI : I.Regular R.calls) (hside : SideConditionsHold I (g.added g'))
    (halikes : ∀ a ∈ g.addedAlikes g', a.Same I) (ρ : Valuation) (hρ : ρ.Fits g.symbols)
    (hfacts : ∀ f ∈ s.facts, f.Holds I ρ) :
    (∀ (v w : Value) (t : Ty), v.Typed R.bounds ⟨vars, R.calls⟩ t → t ≠ .unit →
      Gives (value ctx s subject v) g (w, s') g' → v.Defined I (s.values.valuation I ρ)) ∧
    (∀ f f' : Formula, f.Typed R.bounds ⟨vars, R.calls⟩ →
      Gives (formula ctx s subject f) g (f', s') g' → f.Defined I (s.values.valuation I ρ)) ∧
    ∀ e e' : Expr, e.Typed R.bounds ⟨vars, R.calls⟩ .i32 →
      Gives (expr ctx s subject e) g (e', s') g' → e.Defined I (s.values.valuation I ρ) := by
  have hvalue : ∀ {v : Value} {t : Ty} {s₁ : SymState} {g₁ : Generator},
      v.Typed R.bounds ⟨vars, R.calls⟩ t → Gives (conditionsOfValue ctx s subject v) g s₁ g₁ →
        g₁.Grows g' → t = .unit ∨ v.Defined I (s.values.valuation I ρ) := by
    intro v t s₁ g₁ hv h hlast
    obtain ⟨cs, g₀, h0, h1⟩ := h.bind
    obtain ⟨⟨_, _, hcs⟩, rfl⟩ := of_encoded h0
    exact defined_of_emitChecks hs hI hρ hfacts
      (faithful_valueChecks (runs_valueChecks hcs) hsees hv hI) h1 hlast hside halikes
  refine ⟨fun v w t hv ht h => ?_, fun f f' hf h => ?_, fun e e' he h => ?_⟩
  · obtain ⟨s₁, g₁, h1, h⟩ := h.bind
    obtain ⟨_, g₂, h2, h3⟩ := h.bind
    obtain ⟨-, rfl⟩ := gives_pure h3
    exact (hvalue hv h1 (of_substValue h2).2.grows).resolve_left ht
  · obtain ⟨s₁, g₁, h1, h⟩ := h.bind
    obtain ⟨_, g₂, h2, h3⟩ := h.bind
    obtain ⟨-, rfl⟩ := gives_pure h3
    obtain ⟨r, g₀, h0, h4⟩ := h1.bind
    obtain ⟨⟨_, _, hr⟩, rfl⟩ := of_encoded h0
    exact defined_of_emitChecks hs hI hρ hfacts
      (Encoding.faithful_formula (Encoding.runs_formula hr) hsees hf hI) h4 (of_substFormula h2).2.grows hside
      halikes
  · obtain ⟨s₁, g₁, h1, h⟩ := h.bind
    obtain ⟨_, g₂, h2, h3⟩ := h.bind
    obtain ⟨-, rfl⟩ := gives_pure h3
    have hdef := (hvalue he.toValue h1 (of_substExpr h2).2.grows).resolve_left (by simp)
    cases e <;> exact hdef

end Generation

/-! ### A quotient, and a call of a procedure -/

/-- The rules for values that may call some functions. -/
def Rules.calling (functions : List Function) : Rules :=
  ⟨⟨fun _ => True, fun _ => True, fun _ => False⟩, functions, False⟩

def proceed : Function where
  name := "proceed"
  inputs := [⟨"x", .i32, false, none⟩]
  output := .unit
  precondition := .lit true
  postcondition := .lit true
  result := .unit none
  body := []
  origin := none

namespace Generation

open GenM

/-- The context in which nothing but a procedure is known. -/
def proceedContext : GenContext := ⟨.standard, [proceed], "main", .empty⟩

/-- The state in which there are no variables. -/
def bareState : SymState := ⟨⟨[proceed], [], [], [], .empty⟩, .empty, []⟩

/-- The call of a procedure with the quotient of one and zero. -/
def undefinedCall : Value :=
  .call "proceed" [.expr (.op .div (.num 1) (.num 0)) none] none

/-- No side condition is added for the call of a procedure, although its argument is not well-defined. -/
theorem not_defined_of_unit :
    bareState.Typed (.calling [proceed]) .empty default ∧
      Sees proceedContext (.calling [proceed]) .empty bareState ∧
      undefinedCall.Typed (Rules.calling [proceed]).bounds ⟨.empty, [proceed]⟩ .unit ∧
      Gives (value proceedContext bareState ⟨none, ""⟩ undefinedCall) default
        (undefinedCall, bareState) default ∧
      ∀ (I : Interp) (ρ : Valuation), ¬ undefinedCall.Defined I ρ := by
  refine ⟨⟨fun x t hx => (nomatch hx), fun f hf => (nomatch hf)⟩, ⟨fun x t hx => (nomatch hx), ?_⟩,
    ⟨proceed, ?_, rfl, ?_⟩, ?_, ?_⟩
  · exact fun f g hg => hg
  · cbv
  · exact ⟨.i32, [], rfl, ⟨rfl, rfl, rfl, rfl⟩, rfl⟩
  · unfold Gives
    cbv
  · intro I ρ
    simp [undefinedCall, Value.Defined, Value.AllDefined, Expr.Defined, Operator.Allows, Expr.eval,
      Val.toInt]

def quotientVars : NameMap Ty := .ofList [("x", .i32), ("y", .i32)]

/-- The fact that `y` is not zero. -/
def nonzero : Formula := .not (.equal (.value (.var "y")) (.num 0))

/-- The state with the inputs `x` and `y`, of which `y` is not zero. -/
def quotientState : SymState :=
  ⟨⟨[], [⟨"x", .i32, false, none⟩, ⟨"y", .i32, false, none⟩], [], [], .empty⟩,
    .ofList [("x", .var "x"), ("y", .var "y")], [nonzero]⟩

def quotientStart : Generator := { (default : Generator) with symbols := quotientVars }

def quotientStop : Generator :=
  { quotientStart with
    obligations := [⟨0, "quotient", .sideCondition .divisionByZero, none, "", [nonzero], nonzero,
      ⟨quotientVars, []⟩⟩] }

def quotient : Expr := .op .div (.value (.var "x")) (.value (.var "y"))

theorem defined_quotient :
    ∃ e' s' g', Gives (expr ⟨.standard, [], "quotient", .empty⟩ quotientState ⟨none, ""⟩ quotient)
        quotientStart (e', s') g' ∧
      ∀ (call : String → List Val → Val) (byZero : Operator → ℤ → ℤ) (ρ : Valuation),
        ρ.Fits quotientVars → nonzero.Holds (.plain call byZero) ρ →
          quotient.Defined (.plain call byZero)
            (quotientState.values.valuation (.plain call byZero) ρ) := by
  have hgives : Gives (expr ⟨.standard, [], "quotient", .empty⟩ quotientState ⟨none, ""⟩ quotient)
      quotientStart (quotient, quotientState) quotientStop := by
    rfl
  have hy : (quotientStart.scope (.calling [])).type? "y" = some .i32 := rfl
  have htyped : quotientState.Typed (.calling []) quotientVars quotientStart := by
    refine ⟨fun x t hx => ?_, fun f hf => ?_⟩
    · have hget : quotientState.values.get? x = (quotientVars.get? x).map fun _ => .var x := by
        simp only [quotientState, quotientVars, NameMap.ofList, List.foldl_cons, List.foldl_nil,
          NameMap.get?_insert]
        split_ifs <;> simp_all
      exact ⟨.var x, by rw [hget, hx]; rfl, t, hx, rfl⟩
    · obtain rfl := List.mem_singleton.mp hf
      exact ⟨.i32, .inr (.inl rfl), ⟨.i32, hy, rfl⟩, rfl⟩
  have hsees : Sees ⟨.standard, [], "quotient", .empty⟩ (.calling []) quotientVars quotientState :=
    ⟨fun _ _ hx => hx, fun _ _ hg => hg⟩
  refine ⟨_, _, _, hgives, fun call byZero ρ hρ hnonzero => ?_⟩
  have hside : SideConditionsHold (.plain call byZero) (quotientStart.added quotientStop) := by
    intro o ho _
    obtain rfl := List.mem_singleton.mp ho
    exact (Obligation.holds_iff _).mpr fun ρ' _ h => h nonzero (List.mem_singleton_self _)
  refine (defined_of_sideConditions (.calling []) _ quotientVars quotientState quotientState
    quotientStart quotientStop ⟨none, ""⟩ htyped hsees _
    (Interp.regular_plain (by simp [Rules.calling]) byZero) hside
    (fun a ha => absurd ha List.not_mem_nil) ρ hρ ?_).2.2 quotient quotient
    ⟨rfl, ⟨.i32, rfl, rfl⟩, ⟨.i32, hy, rfl⟩⟩ hgives
  intro f hf
  obtain rfl := List.mem_singleton.mp hf
  exact hnonzero

end Generation

end Verdict
