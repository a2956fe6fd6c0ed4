import Verdict.Proofs.Meaning

/-! # Meanings depend on free variables only

Two valuations that agree on the free variables of a node give it the same meaning. The connectives that
are built with simplifications mean what the plain ones do. -/

namespace Verdict

variable {I : Interp} {ρ ρ' : Valuation}

def Valuation.AgreeOn (ρ ρ' : Valuation) (xs : Names) : Prop := ∀ x ∈ xs.members, ρ x = ρ' x

namespace Valuation.AgreeOn

variable {xs : Names}

theorem symm (h : ρ.AgreeOn ρ' xs) : ρ'.AgreeOn ρ xs := fun x hx => (h x hx).symm

theorem left {ys : Names} (h : ρ.AgreeOn ρ' (xs.union ys)) : ρ.AgreeOn ρ' xs :=
  fun x hx => h x (by simp [hx])

theorem right {ys : Names} (h : ρ.AgreeOn ρ' (xs.union ys)) : ρ.AgreeOn ρ' ys :=
  fun x hx => h x (by simp [hx])

/-- Below a binder the variable denotes the same in both. -/
theorem update {x : String} (h : ρ.AgreeOn ρ' (xs.erase x)) (v : Val) :
    AgreeOn (Function.update ρ x v) (Function.update ρ' x v) xs := by
  intro y hy
  by_cases hyx : y = x
  · subst hyx; simp
  · simp only [Function.update_of_ne hyx]
    exact h y (by simp [hy, hyx])

end Valuation.AgreeOn

mutual

theorem Place.eval_congr (p : Place) {ρ ρ' : Valuation} (h : ρ.AgreeOn ρ' p.freeVars) :
    p.eval I ρ = p.eval I ρ' :=
  match p, h with
  | .name x _, h => h x (by simp [Place.freeVars])
  | .wildcard _, _ => rfl
  | .elem _ x i _, h => by
    have hx : ρ x = ρ' x := h x (by simp [Place.freeVars])
    simp only [Place.eval, hx, i.eval_congr h.right]

theorem Value.eval_congr (v : Value) {ρ ρ' : Valuation} (h : ρ.AgreeOn ρ' v.freeVars) :
    v.eval I ρ = v.eval I ρ' :=
  match v, h with
  | .expr e _, h => by simp only [Value.eval]; exact e.eval_congr h
  | .formula f _, h => by
    have hf : f.Holds I ρ = f.Holds I ρ' := propext (f.holds_congr h)
    simp only [Value.eval]
    rw [hf]
  | .place p _, h => by simp only [Value.eval]; exact p.eval_congr h
  | .tuple vs _, h | .array vs _, h | .call f vs _, h => by simp only [Value.eval, Value.evalAll_congr vs h]
  | .ref v _ _, h | .deref v _, h => by simp only [Value.eval]; exact v.eval_congr h
  | .unit _, _ => rfl
  | .ite c t e _, h => by
    have hc : c.Holds I ρ = c.Holds I ρ' := propext (c.holds_congr h.left.left)
    simp only [Value.eval, t.eval_congr h.left.right, e.eval_congr h.right]
    rw [hc]
  | .select _ b i _, h => by
    simp only [Value.eval, b.eval_congr h.left, i.eval_congr h.right]
  | .store _ b i e _, h => by
    simp only [Value.eval, b.eval_congr h.left.left, i.eval_congr h.left.right,
      e.eval_congr h.right]
  | .missing, _ => rfl

theorem Value.evalAll_congr (vs : List Value) {ρ ρ' : Valuation} (h : ρ.AgreeOn ρ' (Value.freeVarsAll vs)) :
    Value.evalAll I ρ vs = Value.evalAll I ρ' vs :=
  match vs, h with
  | [], _ => rfl
  | v :: vs, h => by
    simp only [Value.evalAll, v.eval_congr h.left, Value.evalAll_congr vs h.right]

theorem Expr.eval_congr (e : Expr) {ρ ρ' : Valuation} (h : ρ.AgreeOn ρ' e.freeVars) :
    e.eval I ρ = e.eval I ρ' :=
  match e, h with
  | .num _, _ => rfl
  | .value v, h => by simp only [Expr.eval]; exact v.eval_congr h
  | .op _ a b, h => by
    simp only [Expr.eval, a.eval_congr h.left, b.eval_congr h.right]

theorem Formula.holds_congr (f : Formula) {ρ ρ' : Valuation} (h : ρ.AgreeOn ρ' f.freeVars) :
    (f.Holds I ρ ↔ f.Holds I ρ') :=
  match f, h with
  | .lit _, _ => Iff.rfl
  | .and f g, h | .or f g, h => by simp only [Formula.Holds, f.holds_congr h.left, g.holds_congr h.right]
  | .not f, h => not_congr (f.holds_congr h)
  | .value v, h => by
    have hv : v.eval I ρ = v.eval I ρ' := v.eval_congr h
    simp only [Formula.Holds, hv]
  | .equal a b, h | .compare _ a b, h => by
    simp only [Formula.Holds, a.eval_congr h.left, b.eval_congr h.right]
  | .quant .all x t f, h => forall₂_congr fun v _ => f.holds_congr (h.update v)
  | .quant .some x t f, h => exists_congr fun v => and_congr_right fun _ => f.holds_congr (h.update v)

end

/-! ### Simplified connectives -/

namespace Formula

variable {f : Formula} {P : Formula → Prop}

theorem holds_of_isTrue (h : f.isTrue = true) : f.Holds I ρ := by
  unfold isTrue at h
  split at h
  · exact h
  · cases h

theorem not_holds_of_isFalse (h : f.isFalse = true) : ¬ f.Holds I ρ := by
  unfold isFalse at h
  split at h
  · simpa [Holds] using h
  · cases h

@[simp] theorem holds_negate (f : Formula) : f.negate.Holds I ρ ↔ ¬ f.Holds I ρ := by
  unfold negate
  split <;> simp [Holds]

/-- A property of conjunctions and of the truth is one of the conjunction of all formulas with it. -/
theorem conj_of {fs : List Formula} (htrue : P (.lit true)) (hand : ∀ f g, P f → P g → P (.and f g))
    (h : ∀ f ∈ fs, P f) : P (conj fs) := by
  have hfold : ∀ acc : Option Formula, (∀ f ∈ acc, P f) →
      P ((fs.foldl addConjunct acc).getD (.lit true)) := by
    induction fs with
    | nil =>
      rintro (_ | g) hacc
      · exact htrue
      · exact hacc g rfl
    | cons f fs ih =>
      intro acc hacc
      refine ih (fun g hg => h g (List.mem_cons_of_mem f hg)) _ fun g hg => ?_
      have hf := h f List.mem_cons_self
      rcases acc with _ | a <;> simp only [addConjunct] at hg <;> split_ifs at hg <;>
        simp only [Option.mem_def, reduceCtorEq, Option.some.injEq] at hg
      · exact hg ▸ hf
      · exact hg ▸ hacc a rfl
      · exact hg ▸ hand a f (hacc a rfl) hf
  exact hfold none (by simp)

theorem disj_pair (f g : Formula) : disj [f, g] =
    if f.isFalse then if g.isFalse then .lit false else g else if g.isFalse then f else .or f g := by
  unfold disj
  split_ifs <;> simp [addDisjunct, *]

theorem implies_of {g : Formula} (hfalse : P (.lit false)) (hor : ∀ f g, P f → P g → P (.or f g))
    (hf : P f.negate) (hg : P g) : P (f.implies g) := by
  rw [implies, disj_pair]
  split_ifs
  · exact hg
  · exact hfalse
  · exact hg
  · exact hf
  · exact hor _ _ hf hg

theorem holds_foldl_addConjunct (fs : List Formula) (acc : Option Formula) :
    ((fs.foldl addConjunct acc).getD (.lit true)).Holds I ρ ↔
      (acc.getD (.lit true)).Holds I ρ ∧ ∀ f ∈ fs, f.Holds I ρ := by
  induction fs generalizing acc with
  | nil => simp
  | cons f fs ih =>
    have hstep : ((addConjunct acc f).getD (.lit true)).Holds I ρ ↔
        (acc.getD (.lit true)).Holds I ρ ∧ f.Holds I ρ := by
      rcases acc with _ | g
      · by_cases hf : f.isTrue
        · simp [addConjunct, hf, Holds, holds_of_isTrue hf]
        · simp [addConjunct, hf, Holds]
      · by_cases hf : f.isTrue
        · simp [addConjunct, hf, holds_of_isTrue hf]
        · simp [addConjunct, hf, Holds]
    rw [List.foldl_cons, ih, hstep]
    simp only [List.forall_mem_cons]
    tauto

theorem holds_conj (fs : List Formula) : (conj fs).Holds I ρ ↔ ∀ f ∈ fs, f.Holds I ρ := by
  unfold conj
  rw [holds_foldl_addConjunct]
  simp [Holds]

theorem holds_implies (f g : Formula) :
    (f.implies g).Holds I ρ ↔ (f.Holds I ρ → g.Holds I ρ) := by
  rw [implies, disj_pair, imp_iff_not_or, ← holds_negate]
  split_ifs with ht hf hg hg
  · simp [holds_of_isTrue ht]
  · simp [Holds, not_holds_of_isFalse hf, not_holds_of_isFalse hg]
  · simp [not_holds_of_isFalse hf]
  · simp [not_holds_of_isFalse hg]
  · rfl

end Formula

@[simp] theorem Value.eval_toExpr (v : Value) : v.toExpr.eval I ρ = v.eval I ρ := by
  cases v <;> rfl

@[simp] theorem Expr.eval_toValue (e : Expr) : e.toValue.eval I ρ = e.eval I ρ := by
  cases e <;> rfl

theorem Value.eval_formula_eq_true (f : Formula) (o : Origin) :
    (Value.formula f o).eval I ρ = .bool true ↔ f.Holds I ρ := by
  simp only [Value.eval, Val.bool.injEq, decide_eq_true_eq]

@[simp] theorem Value.holds_toFormula (v : Value) :
    v.toFormula.Holds I ρ ↔ v.eval I ρ = .bool true := by
  cases v with
  | formula f o => exact (Value.eval_formula_eq_true f o).symm
  | _ => rfl

@[simp] theorem Formula.eval_toValue (f : Formula) :
    f.toValue.eval I ρ = .bool true ↔ f.Holds I ρ := by
  cases f with
  | value v => rfl
  | _ => exact Value.eval_formula_eq_true _ none

/-- An obligation holds if its goal is true wherever its assumptions are. -/
theorem Obligation.holds_iff (o : Obligation) : o.Holds I ↔
    ∀ ρ : Valuation, ρ.Fits o.scope.vars → (∀ f ∈ o.assumptions, f.Holds I ρ) → o.goal.Holds I ρ := by
  unfold Obligation.Holds Obligation.formula
  simp only [Formula.holds_implies, Formula.holds_conj]

end Verdict
