import Verdict.Proofs.Functions

/-! # Soundness

If all obligations of a function without calls are true, no run of it goes wrong
(`Function.execute_ne_wrong`). The generator takes values that print alike for one another, so this is
proved for functions in which such values mean the same. Without that it fails: `(p < q) < r` and
`p < (q < r)` print alike (`Function.wrong_of_alike`). -/

namespace Verdict

/-- The rules for functions without calls that do not compare whole arrays or tuples, and whose unit
values are literals. -/
def Rules.callFree : Rules := ⟨⟨fun _ => True, fun _ => True, fun _ => False⟩, [], True⟩

theorem Rules.suits_of_calls_nil {R : Rules} (h : R.calls = []) (functions : List Function) :
    R.Suits functions := by
  refine ⟨⟨.plain (fun _ _ => .unit) fun _ _ => 0, ?_⟩, ?_, ?_, ?_⟩
  · rw [h]
    exact Interp.regular_plain (by simp) _
  all_goals rw [h]; simp

namespace Generation

variable {R : Rules} {modes : Modes} {functions : List Function} {f : Function}
  {os : List Obligation}

theorem gives_of_obligations (h : f.obligations modes functions = .ok os) :
    ∃ g, GenM.Gives (function modes functions f) default () g ∧ os = g.finish functions ∧
      f.alikes modes functions = g.alikes := by
  unfold Function.obligations at h
  split at h
  · next u g hrun =>
    refine ⟨g, hrun, (Except.ok.inj h).symm, ?_⟩
    unfold Function.alikes
    rw [hrun]
  · cases h

theorem discharged_of_finish {I : Interp} {g : Generator}
    (h : ∀ o ∈ g.finish functions, o.Holds I) : g.Discharged I := by
  intro o ho ρ hρ
  have hfin := h { o with scope := ⟨g.symbols, functions⟩ } (List.mem_map.mpr ⟨o, ho, rfl⟩)
  exact (Obligation.holds_iff _).mp hfin ρ hρ

/-- What is proved of the obligations of a function is proved of its runs. -/
theorem sound_of_obligations {M : Machine} {g : Generator}
    (r : FunctionCourse R (contextOf modes functions f) f g) (hregular : M.interp.Regular R.calls)
    (hobeys : ∀ callee ∈ R.calls, M.Obeys callee) (hos : os = g.finish functions)
    (htrue : ∀ o ∈ os, o.Holds M.interp) (halikes : M.interp.Equates g.alikes) :
    Sound R M g :=
  ⟨hregular, hobeys, r.known, discharged_of_finish (hos ▸ htrue), halikes⟩

theorem exists_sound_callFree {call : String → List Val → Val} {byZero : Operator → ℤ → ℤ}
    (hvalid : Scoping.function functions f = []) (hwt : f.WellTyped .callFree functions)
    (hos : f.obligations modes functions = .ok os) (htrue : ∀ o ∈ os, o.Holds (.plain call byZero))
    (halikes : ∀ a ∈ f.alikes modes functions, a.Same (.plain call byZero)) :
    ∃ g, Nonempty (FunctionCourse .callFree (contextOf modes functions f) f g) ∧
      Sound .callFree (.ofInterp (.plain call byZero)) g := by
  obtain ⟨g, hgives, hfinish, halike⟩ := gives_of_obligations hos
  obtain ⟨r⟩ := functionCourse hvalid hwt (Rules.suits_of_calls_nil rfl functions) hgives
  exact ⟨g, ⟨r⟩, sound_of_obligations r (Interp.regular_plain (by simp [Rules.callFree]) byZero)
    (by simp [Rules.callFree]) hfinish htrue (halike ▸ halikes)⟩

end Generation

open Generation in
/-- If all obligations of a function without calls are true, then in every run from inputs that satisfy
the precondition, no assertion, invariant or postcondition is false and nothing undefined is
evaluated. -/
theorem Function.execute_ne_wrong (modes : Modes) (functions : List Function) (f : Function)
    (hvalid : Scoping.function functions f = []) (hwt : f.WellTyped .callFree functions)
    (os : List Obligation) (hos : f.obligations modes functions = .ok os)
    (call : String → List Val → Val) (byZero : Operator → ℤ → ℤ)
    (htrue : ∀ o ∈ os, o.Holds (.plain call byZero))
    (halikes : ∀ a ∈ f.alikes modes functions, a.Same (.plain call byZero))
    (fuel : ℕ) (args : List Val) (hargs : Ty.HasAll (f.inputs.map Declaration.type) args)
    (choices : ℕ → Val) (v : Violation) :
    f.execute (.ofInterp (.plain call byZero)) fuel args choices ≠ .wrong v := by
  obtain ⟨g, ⟨r⟩, hsound⟩ := exists_sound_callFree hvalid hwt hos htrue halikes
  exact (r.ensures_execute hsound hargs fuel choices).ne_wrong v

/-! ### Functions and what their obligations say -/

/-- What an obligation says. -/
structure Outline where
  vars : NameMap Ty
  assumptions : List Formula
  goal : Formula

/-- Whether what an obligation says is true, whatever its symbolic constants denote. -/
def Outline.Holds (I : Interp) (t : Outline) : Prop :=
  ∀ ρ : Valuation, ρ.Fits t.vars → (∀ f ∈ t.assumptions, f.Holds I ρ) → t.goal.Holds I ρ

def Obligation.outline (o : Obligation) : Outline := ⟨o.scope.vars, o.assumptions, o.goal⟩

/-- Obligations are true if what they say is. -/
theorem Function.exists_obligations {f : Function} {modes : Modes} {functions : List Function}
    (ts : List Outline)
    (h : (f.obligations modes functions).toOption.map (List.map Obligation.outline) = some ts)
    {I : Interp} (hts : ∀ t ∈ ts, t.Holds I) :
    ∃ os, f.obligations modes functions = .ok os ∧ ∀ o ∈ os, o.Holds I := by
  obtain ⟨os, hos, rfl⟩ := Option.map_eq_some_iff.mp h
  exact ⟨os, toOption_eq_some.mp hos,
    fun o ho => (Obligation.holds_iff o).mpr (hts _ (List.mem_map_of_mem ho))⟩

/-- Counts its input down to zero. -/
def countdown : Function where
  name := "countdown"
  inputs := [⟨"n", .i32, true, none⟩]
  output := .i32
  precondition := .compare .ge (.value (.var "n")) (.num 0)
  postcondition := .equal (.value (.var resultName)) (.num 0)
  result := .var "n"
  body := [
    .whileLoop (.compare .gt (.value (.var "n")) (.num 0)) (.compare .ge (.value (.var "n")) (.num 0))
      (some (.value (.var "n")))
      [.assign ⟨.name "n" none, .expr (.op .sub (.value (.var "n")) (.num 1)) none, none⟩] none]
  origin := none

/-- What the obligations of `countdown` say. The input is `n`, and `n'1` is its value at the head of the
loop. -/
def countdownOutlines : List Outline :=
  let vars := NameMap.ofList [("n", .i32), ("n'1", .i32)]
  let nonneg (x : String) : Formula := .compare .ge (.value (.var x)) (.num 0)
  let positive : Formula := .compare .gt (.value (.var "n'1")) (.num 0)
  let next : Expr := .op .sub (.value (.var "n'1")) (.num 1)
  [⟨vars, [nonneg "n"], nonneg "n"⟩,
    ⟨vars, [nonneg "n", nonneg "n'1", positive], nonneg "n'1"⟩,
    ⟨vars, [nonneg "n", nonneg "n'1", positive], .compare .ge next (.num 0)⟩,
    ⟨vars, [nonneg "n", nonneg "n'1", positive], .compare .lt next (.value (.var "n'1"))⟩,
    ⟨vars, [nonneg "n", nonneg "n'1", .not positive], .equal (.value (.var "n'1")) (.num 0)⟩]

theorem wellTyped_countdown : countdown.WellTyped .callFree [countdown] := by
  refine ⟨⟨.i32, .inr rfl, ⟨.i32, ?_, rfl⟩, rfl⟩,
    ⟨⟨⟨.i32, .inr rfl, ⟨.i32, ?_, rfl⟩, rfl⟩, ⟨.i32, .inr rfl, ⟨.i32, ?_, rfl⟩, rfl⟩, ?variant,
      ⟨.i32, ⟨⟨rfl, rfl, ⟨.i32, ?_, rfl⟩, rfl⟩, by simp⟩, .i32, ?_, rfl⟩, trivial⟩, trivial⟩,
    ⟨⟨.i32, ?_, rfl⟩, by simp [countdown, Ty.bare]⟩, ⟨.i32, .inr (.inl rfl), ⟨.i32, ?_, rfl⟩, rfl⟩⟩
  case variant =>
    rintro v ⟨⟩
    exact ⟨.i32, by cbv, rfl⟩
  all_goals cbv

theorem obligations_countdown (I : Interp) :
    ∃ os, countdown.obligations .standard [countdown] = .ok os ∧ ∀ o ∈ os, o.Holds I := by
  refine Function.exists_obligations countdownOutlines (by cbv) ?_
  have hhead : ∀ ρ : Valuation, ρ.Fits (NameMap.ofList [("n", .i32), ("n'1", .i32)]) →
      ∃ n, ρ "n'1" = .int n := fun ρ hρ => hρ "n'1" .i32 (by cbv)
  simp only [countdownOutlines, List.forall_mem_cons, List.not_mem_nil, false_imp_iff, implies_true,
    and_true]
  refine ⟨?_, ?_, ?_, ?_, ?_⟩ <;> intro ρ hρ has <;> obtain ⟨n, hn⟩ := hhead ρ hρ <;>
    simp [Formula.Holds, Comparison.Holds, Expr.eval, Value.var, Value.eval, Place.eval, Val.Le,
      Val.Lt, Interp.operate, Val.toInt, hn] at has ⊢ <;> grind

theorem Function.countdown_ne_wrong :
    ∃ os, countdown.obligations .standard [countdown] = .ok os ∧
      (∀ o ∈ os, o.Holds (.plain (fun _ _ => .unit) fun _ _ => 0)) ∧
        ∀ fuel, countdown.execute (.ofInterp (.plain (fun _ _ => .unit) fun _ _ => 0)) fuel [.int 3]
          (fun _ => .unit) ≠ .wrong .postcondition := by
  obtain ⟨os, hos, htrue⟩ := obligations_countdown (.plain (fun _ _ => .unit) fun _ _ => 0)
  have halikes : countdown.alikes .standard [countdown] = [] := by cbv
  exact ⟨os, hos, htrue, fun fuel => Function.execute_ne_wrong .standard [countdown] countdown
    (by decide +kernel) wellTyped_countdown os hos _ _ htrue (by simp [halikes]) fuel [.int 3]
    ⟨_, _, rfl, ⟨3, rfl⟩, rfl⟩ _ _⟩

/-! ### Values that print alike -/

/-- `(p < q) < r`, of truth values. -/
def lessLeft : Formula :=
  .compare .lt
    (.value (.formula (.compare .lt (.value (.var "p")) (.value (.var "q"))) none))
    (.value (.var "r"))

/-- `p < (q < r)`, of truth values. It is printed like `lessLeft`. -/
def lessRight : Formula :=
  .compare .lt (.value (.var "p"))
    (.value (.formula (.compare .lt (.value (.var "q")) (.value (.var "r"))) none))

/-- Sets `x` to one of two truth values that print alike, and takes it for the first. -/
def mixed : Function where
  name := "mixed"
  inputs := ["c", "p", "q", "r"].map fun x => ⟨x, .bool, false, none⟩
  output := .unit
  precondition := .lit true
  postcondition := .lit true
  result := .unit none
  body := [
    .bind ⟨"x", .bool, true, none⟩ (.formula lessLeft none),
    .cond (.branch (.value (.var "c")) [] (.otherwise
      [.assign ⟨.name "x" none, .formula lessRight none, none⟩])) none,
    .assert (.equal (.value (.var "x")) (.value (.formula lessLeft none))) none]
  origin := none

theorem typed_less {fits : Bounds} {Γ : Scope} (hp : Γ.type? "p" = some .bool)
    (hq : Γ.type? "q" = some .bool) (hr : Γ.type? "r" = some .bool) :
    lessLeft.Typed fits Γ ∧ lessRight.Typed fits Γ :=
  ⟨⟨.bool, .inl rfl, ⟨rfl, .bool, .inl rfl, ⟨.bool, hp, rfl⟩, ⟨.bool, hq, rfl⟩⟩, ⟨.bool, hr, rfl⟩⟩,
    ⟨.bool, .inl rfl, ⟨.bool, hp, rfl⟩, ⟨rfl, .bool, .inl rfl, ⟨.bool, hq, rfl⟩, ⟨.bool, hr, rfl⟩⟩⟩⟩

theorem wellTyped_mixed : mixed.WellTyped .callFree [mixed] := by
  have hentry : lessLeft.Typed Rules.callFree.bounds (Rules.callFree.scope (mixed.entryEnv [mixed])) :=
    (typed_less (by cbv) (by cbv) (by cbv)).1
  have hexit : lessLeft.Typed Rules.callFree.bounds (Rules.callFree.scope (mixed.exitEnv [mixed])) ∧
      lessRight.Typed Rules.callFree.bounds (Rules.callFree.scope (mixed.exitEnv [mixed])) :=
    typed_less (by cbv) (by cbv) (by cbv)
  refine ⟨trivial, ⟨⟨⟨rfl, hentry⟩, by simp [Ty.bare]⟩, ⟨⟨.bool, ?_, rfl⟩, trivial,
    ⟨.bool, ⟨⟨rfl, hexit.2⟩, by simp⟩, .bool, ?_, rfl⟩, trivial⟩,
    ⟨.bool, .inl rfl, ⟨.bool, ?_, rfl⟩, rfl, hexit.1⟩, trivial⟩, ⟨rfl, by simp [mixed]⟩, trivial⟩
  all_goals cbv

/-- The obligation of a function compares a value with itself where values that print alike are taken
for one another. It is true, and a run goes wrong. -/
theorem Function.wrong_of_alike :
    Scoping.function [mixed] mixed = [] ∧ mixed.WellTyped .callFree [mixed] ∧
      (∃ os, mixed.obligations .standard [mixed] = .ok os ∧
        ∀ o ∈ os, o.Holds (.plain (fun _ _ => .unit) fun _ _ => 0)) ∧
      Ty.HasAll (mixed.inputs.map Declaration.type)
        [.bool false, .bool true, .bool false, .bool true] ∧
      mixed.execute (.ofInterp (.plain (fun _ _ => .unit) fun _ _ => 0)) 0
        [.bool false, .bool true, .bool false, .bool true] (fun _ => .unit) = .wrong .assertion := by
  refine ⟨by decide +kernel, wellTyped_mixed, ?_, ?_, ?_⟩
  · refine exists_obligations [⟨NameMap.ofList [("c", .bool), ("p", .bool), ("q", .bool),
      ("r", .bool)], [], .equal (.value (.formula lessLeft none)) (.value (.formula lessLeft none))⟩]
      (by cbv) ?_
    rintro t ht ρ -
    obtain rfl := List.mem_singleton.mp ht
    simp [Formula.Holds]
  · exact ⟨_, _, rfl, ⟨_, rfl⟩, _, _, rfl, ⟨_, rfl⟩, _, _, rfl, ⟨_, rfl⟩, _, _, rfl, ⟨_, rfl⟩, rfl⟩
  · simp [execute, run, Machine.assume, Machine.check, Machine.truth, Machine.value,
      Machine.evaluate, Machine.Answers, Machine.ofInterp, mixed, entryStore, oldName,
      Command.execAll, Command.exec, Branches.exec, Machine.assign, Machine.writes, Machine.index,
      Write.apply, Place.base, Formula.Holds, Formula.Defined, lessLeft, lessRight,
      Comparison.Holds, Value.var, Value.eval, Expr.eval, Place.eval, Val.Lt, Expr.Defined,
      Value.Defined, Place.Defined]

end Verdict
