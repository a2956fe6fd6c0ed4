import Verdict.Proofs.Substitution

/-! # The substitution lemma without types

What a node means after a substitution is what it means where each replaced variable denotes what its
replacement does (`Substitution.meaning_subst`). Nothing is asked of the types of variables or of the
places where they are bound. Conditional values are left out, because those that are printed alike are
merged. An element that is stored has to be there, so that it is read back: a store goes to an array, all
of whose positions hold something, or to a position of a tuple. -/

namespace Verdict

/-! ### Elements that are there -/

namespace Val

/-- Whether something is of the shape that an access is marked with, and has an element at a position.
Arrays are total maps. -/
def Admits : Val → Shape → ℤ → Prop
  | array _ _, .array, _ => True
  | tuple vs, .tuple, i => 0 ≤ i ∧ i < vs.length
  | _, _, _ => False

theorem get_put_self {v : Val} {s : Shape} {i : ℤ} (h : v.Admits s i) (w : Val) :
    (v.put i w).get i = w := by
  cases v with
  | array n f => exact Function.update_self i w f
  | tuple vs =>
    cases s with
    | array => exact h.elim
    | tuple =>
      obtain ⟨hi, hlt⟩ := h
      have hlt' : i.toNat < vs.length := by omega
      rw [put, if_pos hi, get, if_pos hi, List.getElem?_set_self hlt', Option.getD_some]
  | int n | bool b | unit => cases s <;> exact h.elim

theorem get_put_of_ne {i j : ℤ} (h : i ≠ j) (v w : Val) : (v.put j w).get i = v.get i := by
  cases v with
  | array n f => exact Function.update_of_ne h w f
  | tuple vs =>
    rw [put]
    split_ifs with hj
    · rw [get, get]
      split_ifs with hi
      · have hne : j.toNat ≠ i.toNat := by omega
        rw [List.getElem?_set_ne hne]
      · rfl
    · rfl
  | int n | bool b | unit => rfl

end Val

/-! ### Elementary nodes -/

mutual

/-- Whether the index of a place is elementary. -/
def Place.Elementary (I : Interp) (ρ : Valuation) : Place → Prop
  | .name _ _ | .wildcard _ => True
  | .elem _ _ i _ => i.Elementary I ρ

/-- Whether a value has no conditional in it and stores only elements that are there. A formula that only
wraps a value is not told from that value, which has to be a truth value. -/
def Value.Elementary (I : Interp) (ρ : Valuation) : Value → Prop
  | .expr e _ => e.Elementary I ρ
  | .formula f _ => f.Elementary I ρ ∧ ∀ v, f = .value v → ∃ b, v.eval I ρ = .bool b
  | .place p _ => p.Elementary I ρ
  | .tuple vs _ | .array vs _ | .call _ vs _ => Value.AllElementary I ρ vs
  | .ref v _ _ | .deref v _ => v.Elementary I ρ
  | .unit _ | .missing => True
  | .ite _ _ _ _ => False
  | .select _ b i _ => b.Elementary I ρ ∧ i.Elementary I ρ
  | .store s b i e _ => (b.Elementary I ρ ∧ i.Elementary I ρ ∧ e.Elementary I ρ) ∧
    (b.eval I ρ).Admits s (i.eval I ρ).toInt

def Value.AllElementary (I : Interp) (ρ : Valuation) : List Value → Prop
  | [] => True
  | v :: vs => v.Elementary I ρ ∧ Value.AllElementary I ρ vs

def Expr.Elementary (I : Interp) (ρ : Valuation) : Expr → Prop
  | .num _ => True
  | .value v => v.Elementary I ρ
  | .op _ a b => a.Elementary I ρ ∧ b.Elementary I ρ

/-- Whether a formula is elementary, its body wherever its variable has a value of its type. -/
def Formula.Elementary (I : Interp) (ρ : Valuation) : Formula → Prop
  | .lit _ => True
  | .and f g | .or f g => f.Elementary I ρ ∧ g.Elementary I ρ
  | .not f => f.Elementary I ρ
  | .value v => v.Elementary I ρ
  | .equal a b | .compare _ a b => a.Elementary I ρ ∧ b.Elementary I ρ
  | .quant _ x t f => ∀ v, t.Has v → f.Elementary I (Function.update ρ x v)

end

variable {I : Interp} {ρ : Valuation} {v : Value}

mutual

theorem Place.Elementary.congr (p : Place) {ρ ρ'} (h : p.Elementary I ρ)
    (hρ : ρ.AgreeOn ρ' p.freeVars) : p.Elementary I ρ' :=
  match p, h, hρ with
  | .name _ _, _, _ | .wildcard _, _, _ => trivial
  | .elem _ _ i _, h, hρ => Value.Elementary.congr i h hρ.right

/-- Only the variables of a value matter. -/
theorem Value.Elementary.congr (v : Value) {ρ ρ'} (h : v.Elementary I ρ)
    (hρ : ρ.AgreeOn ρ' v.freeVars) : v.Elementary I ρ' :=
  match v, h, hρ with
  | .expr e _, h, hρ => Expr.Elementary.congr e h hρ
  | .formula f _, h, hρ => by
    refine ⟨h.1.congr f hρ, ?_⟩
    rintro v rfl
    rw [← v.eval_congr hρ]
    exact h.2 v rfl
  | .place p _, h, hρ => Place.Elementary.congr p h hρ
  | .tuple vs _, h, hρ | .array vs _, h, hρ | .call _ vs _, h, hρ => Value.AllElementary.congr vs h hρ
  | .ref v _ _, h, hρ | .deref v _, h, hρ => Value.Elementary.congr v h hρ
  | .unit _, _, _ | .missing, _, _ => trivial
  | .ite _ _ _ _, h, _ => h.elim
  | .select _ b i _, h, hρ => ⟨h.1.congr b hρ.left, h.2.congr i hρ.right⟩
  | .store s b i e _, h, hρ => by
    obtain ⟨⟨hb, hi, he⟩, hadmits⟩ := h
    refine ⟨⟨hb.congr b hρ.left.left, hi.congr i hρ.left.right, he.congr e hρ.right⟩, ?_⟩
    rwa [← b.eval_congr hρ.left.left, ← i.eval_congr hρ.left.right]

theorem Value.AllElementary.congr (vs : List Value) {ρ ρ'} (h : Value.AllElementary I ρ vs)
    (hρ : ρ.AgreeOn ρ' (Value.freeVarsAll vs)) : Value.AllElementary I ρ' vs :=
  match vs, h, hρ with
  | [], _, _ => trivial
  | v :: vs, h, hρ => ⟨h.1.congr v hρ.left, h.2.congr vs hρ.right⟩

theorem Expr.Elementary.congr (e : Expr) {ρ ρ'} (h : e.Elementary I ρ)
    (hρ : ρ.AgreeOn ρ' e.freeVars) : e.Elementary I ρ' :=
  match e, h, hρ with
  | .num _, _, _ => trivial
  | .value v, h, hρ => Value.Elementary.congr v h hρ
  | .op _ a b, h, hρ => ⟨h.1.congr a hρ.left, h.2.congr b hρ.right⟩

theorem Formula.Elementary.congr (f : Formula) {ρ ρ'} (h : f.Elementary I ρ)
    (hρ : ρ.AgreeOn ρ' f.freeVars) : f.Elementary I ρ' :=
  match f, h, hρ with
  | .lit _, _, _ => trivial
  | .and f g, h, hρ | .or f g, h, hρ => ⟨h.1.congr f hρ.left, h.2.congr g hρ.right⟩
  | .not f, h, hρ => Formula.Elementary.congr f h hρ
  | .value v, h, hρ => Value.Elementary.congr v h hρ
  | .equal a b, h, hρ | .compare _ a b, h, hρ => ⟨h.1.congr a hρ.left, h.2.congr b hρ.right⟩
  | .quant _ _ _ f, h, hρ => fun v hv => (h v hv).congr f (hρ.update v)

end

/-! ### Conversions -/

theorem Value.Elementary.toExpr (h : v.Elementary I ρ) : v.toExpr.Elementary I ρ := by
  cases v <;> exact h

theorem Expr.Elementary.toValue {e : Expr} (h : e.Elementary I ρ) : e.toValue.Elementary I ρ := by
  cases e <;> exact h

theorem Value.Elementary.toFormula (h : v.Elementary I ρ) : v.toFormula.Elementary I ρ := by
  cases v with
  | formula f o => exact h.1
  | _ => exact h

theorem Formula.Elementary.toValue {f : Formula} (h : f.Elementary I ρ) : f.toValue.Elementary I ρ := by
  cases f with
  | value v => exact h
  | _ => exact ⟨h, fun v hv => by cases hv⟩

/-- A formula denotes a truth value, also if it is not told from a value. -/
theorem Value.Elementary.exists_bool (h : v.Elementary I ρ) (hv : ∃ b, v.eval I ρ = .bool b) :
    ∃ b, v.toFormula.toValue.eval I ρ = .bool b := by
  cases v with
  | formula f o =>
    cases f with
    | value w => exact h.2 w rfl
    | _ => exact ⟨_, rfl⟩
  | _ => exact hv

/-! ### Elements -/

namespace Value

variable {s : Shape} {i : Value}

theorem Elementary.literalElement {vs : List Value} (h : AllElementary I ρ vs) :
    ∀ {n : ℕ} {w : Value}, vs[n]? = some w → w.Elementary I ρ := by
  induction vs with
  | nil =>
    intro n w hw
    cases hw
  | cons v vs ih =>
    intro n w hw
    cases n with
    | zero =>
      obtain rfl := Option.some.inj hw
      exact h.1
    | succ n => exact ih h.2 hw

theorem Finds.elementary {whole v r : Value} (hr : Finds s i whole v r) (hi : i.Elementary I ρ)
    (h : v.Elementary I ρ) (hw : whole.Elementary I ρ) : r.Elementary I ρ := by
  induction hr with
  | ref _ ih | deref _ ih => exact ih h hw
  | name => exact hi
  | tuple _ hn | array _ hn => exact Elementary.literalElement h hn
  | hit => exact h.1.2.2
  | miss _ _ _ _ ih => exact ih h.1.1 h.1.1
  | ite => exact h.elim
  | select => exact ⟨hw, hi⟩

/-- The element that is found denotes the element of what is denoted. -/
theorem Finds.eval_elementary {whole v r : Value} (hr : Finds s i whole v r) (h : v.Elementary I ρ)
    (hw : whole.eval I ρ = v.eval I ρ) : r.eval I ρ = (v.eval I ρ).get (i.eval I ρ).toInt := by
  induction hr with
  | ref _ ih | deref _ ih => exact ih h hw
  | name => rfl
  | tuple hk hkw => simp [eval, eval_of_constantIndex hk, Val.toInt, Val.get, getElem?_evalAll, hkw]
  | array hk hkw =>
    simp [eval, eval_of_constantIndex hk, Val.toInt, Interp.literal, Val.get, getElem?_evalAll, hkw]
  | hit hk hl =>
    obtain ⟨-, hadmits⟩ := h
    rw [eval_of_constantIndex hl] at hadmits
    simp only [eval, eval_of_constantIndex hk, eval_of_constantIndex hl, Val.toInt]
    exact (Val.get_put_self hadmits _).symm
  | @miss _ _ _ _ _ _ k l _ hk hl hkl _ ih =>
    have hne : (k : ℤ) ≠ l := by omega
    simp only [eval, eval_of_constantIndex hk, eval_of_constantIndex hl, Val.toInt]
    rw [Val.get_put_of_ne hne, ih h.1.1 rfl, eval_of_constantIndex hk]
    rfl
  | ite => exact h.elim
  | select => simp only [eval, hw]

end Value

/-! ### Substitution -/

/-- Whether the replacements of some variables are elementary. -/
def Substitution.Elementary (I : Interp) (ρ : Valuation) (m : Substitution) (xs : Names) : Prop :=
  ∀ x ∈ xs.members, (m.image x).Elementary I ρ

namespace Substitution.Elementary

variable {m : Substitution} {xs ys : Names}

theorem left (h : m.Elementary I ρ (xs.union ys)) : m.Elementary I ρ xs :=
  fun x hx => h x (by simp [hx])

theorem right (h : m.Elementary I ρ (xs.union ys)) : m.Elementary I ρ ys :=
  fun x hx => h x (by simp [hx])

/-- Below a binder replacements are as elementary as outside, as the bound variable is not in them. -/
theorem enter {x : String} (h : m.Elementary I ρ (xs.erase x)) (v : Val) :
    (m.enter x xs).2.Elementary I (Function.update ρ (m.enter x xs).1 v) xs := by
  intro z hz
  by_cases hzx : z = x
  · subst hzx
    rw [image_enter_self]
    trivial
  · rw [image_enter_of_ne m hz hzx]
    refine (h z (by simp [hz, hzx])).congr _ fun y hy => ?_
    rw [Function.update_of_ne]
    rintro rfl
    exact enter_not_mem m hz hzx hy

end Substitution.Elementary

mutual

theorem Place.Elementary.substRead (p : Place) (o : Origin) {m ρ}
    (h : p.Elementary I (m.valuation I ρ)) (hm : m.Elementary I ρ p.freeVars) :
    (p.substRead m o).Elementary I ρ ∧ (p.substRead m o).eval I ρ = p.eval I (m.valuation I ρ) :=
  match p, h, hm with
  | .name x o', h, hm => by
    have hx := hm x (by simp [Place.freeVars])
    unfold Substitution.valuation
    unfold Substitution.image at hx ⊢
    simp only [Place.substRead, Place.eval]
    cases hg : m.get? x with
    | none => exact ⟨trivial, rfl⟩
    | some w =>
      rw [hg] at hx
      exact ⟨hx, rfl⟩
  | .wildcard _, h, hm => ⟨trivial, rfl⟩
  | .elem s x i _, h, hm => by
    have hx : (m.image x).Elementary I ρ := hm x (by simp [Place.freeVars])
    obtain ⟨hi, hieval⟩ := Value.Elementary.substNonempty i h hm.right
    refine ⟨Value.finds_elementOf.elementary hi hx hx, ?_⟩
    rw [Place.eval, ← hieval]
    exact Value.finds_elementOf.eval_elementary hx rfl

/-- Substitution keeps values elementary, and keeps what they mean. -/
theorem Value.Elementary.substNonempty (v : Value) {m ρ} (h : v.Elementary I (m.valuation I ρ))
    (hm : m.Elementary I ρ v.freeVars) :
    (v.substNonempty m).Elementary I ρ ∧ (v.substNonempty m).eval I ρ = v.eval I (m.valuation I ρ) :=
  match v, h, hm with
  | .expr e _, h, hm => by
    obtain ⟨he, heval⟩ := Expr.Elementary.substNonempty e h hm
    simp only [Value.substNonempty, Value.eval, Expr.eval_toValue]
    exact ⟨he.toValue, heval⟩
  | .formula f o, h, hm => by
    obtain ⟨hf, hholds⟩ := h.1.substNonempty f hm
    have hbool : ∃ b, (f.substNonempty m).toValue.eval I ρ = .bool b := by
      cases f with
      | value v =>
        obtain ⟨hv, heval⟩ := Value.Elementary.substNonempty v h.1 hm
        exact hv.exists_bool (heval.symm ▸ h.2 v rfl)
      | quant q x t f =>
        simp only [Formula.substNonempty]
        split_ifs <;> exact ⟨_, rfl⟩
      | _ => exact ⟨_, rfl⟩
    refine ⟨hf.toValue, Ty.Has.bool_ext hbool ⟨_, rfl⟩ ?_⟩
    rw [Value.eval_formula_eq_true, Value.substNonempty, Formula.eval_toValue, hholds]
  | .place p o, h, hm => Place.Elementary.substRead p o h hm
  | .tuple vs _, h, hm | .array vs _, h, hm | .call _ vs _, h, hm => by
    obtain ⟨hvs, heval⟩ := Value.AllElementary.substNonempty vs h hm
    simp only [Value.substNonempty, Value.eval, heval]
    exact ⟨hvs, trivial⟩
  | .ref v _ _, h, hm | .deref v _, h, hm => Value.Elementary.substNonempty v h hm
  | .unit _, h, hm | .missing, h, hm => ⟨trivial, rfl⟩
  | .ite _ _ _ _, h, hm => h.elim
  | .select s b i _, h, hm => by
    obtain ⟨hb, hbeval⟩ := h.1.substNonempty b hm.left
    obtain ⟨hi, hieval⟩ := h.2.substNonempty i hm.right
    refine ⟨Value.finds_elementOf.elementary hi hb hb, ?_⟩
    rw [Value.eval, ← hieval, ← hbeval]
    exact Value.finds_elementOf.eval_elementary hb rfl
  | .store s b i e _, h, hm => by
    obtain ⟨⟨hb, hi, he⟩, hadmits⟩ := h
    obtain ⟨hb', hbeval⟩ := hb.substNonempty b hm.left.left
    obtain ⟨hi', hieval⟩ := hi.substNonempty i hm.left.right
    obtain ⟨he', heeval⟩ := he.substNonempty e hm.right
    simp only [Value.substNonempty, Value.Elementary, Value.eval, hbeval, hieval, heeval]
    exact ⟨⟨⟨hb', hi', he'⟩, hadmits⟩, trivial⟩

theorem Value.AllElementary.substNonempty (vs : List Value) {m ρ}
    (h : Value.AllElementary I (m.valuation I ρ) vs) (hm : m.Elementary I ρ (Value.freeVarsAll vs)) :
    Value.AllElementary I ρ (Value.substAll m vs) ∧
      Value.evalAll I ρ (Value.substAll m vs) = Value.evalAll I (m.valuation I ρ) vs :=
  match vs, h, hm with
  | [], h, hm => ⟨trivial, rfl⟩
  | v :: vs, h, hm => by
    obtain ⟨hv, heval⟩ := h.1.substNonempty v hm.left
    obtain ⟨hvs, hevals⟩ := h.2.substNonempty vs hm.right
    simp only [Value.substAll, Value.evalAll, heval, hevals]
    exact ⟨⟨hv, hvs⟩, trivial⟩

theorem Expr.Elementary.substNonempty (e : Expr) {m ρ} (h : e.Elementary I (m.valuation I ρ))
    (hm : m.Elementary I ρ e.freeVars) :
    (e.substNonempty m).Elementary I ρ ∧ (e.substNonempty m).eval I ρ = e.eval I (m.valuation I ρ) :=
  match e, h, hm with
  | .num _, h, hm => ⟨trivial, rfl⟩
  | .value v, h, hm => by
    obtain ⟨hv, heval⟩ := Value.Elementary.substNonempty v h hm
    simp only [Expr.substNonempty, Expr.eval, Value.eval_toExpr]
    exact ⟨hv.toExpr, heval⟩
  | .op _ a b, h, hm => by
    obtain ⟨ha, haeval⟩ := h.1.substNonempty a hm.left
    obtain ⟨hb, hbeval⟩ := h.2.substNonempty b hm.right
    simp only [Expr.substNonempty, Expr.eval, haeval, hbeval]
    exact ⟨⟨ha, hb⟩, trivial⟩

/-- Substitution keeps formulas elementary, and keeps whether they are true. -/
theorem Formula.Elementary.substNonempty (f : Formula) {m ρ} (h : f.Elementary I (m.valuation I ρ))
    (hm : m.Elementary I ρ f.freeVars) :
    (f.substNonempty m).Elementary I ρ ∧ ((f.substNonempty m).Holds I ρ ↔ f.Holds I (m.valuation I ρ)) :=
  match f, h, hm with
  | .lit _, h, hm => ⟨trivial, Iff.rfl⟩
  | .and f g, h, hm | .or f g, h, hm => by
    obtain ⟨hf, hfholds⟩ := h.1.substNonempty f hm.left
    obtain ⟨hg, hgholds⟩ := h.2.substNonempty g hm.right
    simp only [Formula.substNonempty, Formula.Holds, hfholds, hgholds]
    exact ⟨⟨hf, hg⟩, trivial⟩
  | .not f, h, hm => by
    obtain ⟨hf, hholds⟩ := Formula.Elementary.substNonempty f h hm
    exact ⟨hf, not_congr hholds⟩
  | .value v, h, hm => by
    obtain ⟨hv, heval⟩ := Value.Elementary.substNonempty v h hm
    simp only [Formula.substNonempty, Value.holds_toFormula, Formula.Holds, heval]
    exact ⟨hv.toFormula, trivial⟩
  | .equal a b, h, hm | .compare _ a b, h, hm => by
    obtain ⟨ha, haeval⟩ := h.1.substNonempty a hm.left
    obtain ⟨hb, hbeval⟩ := h.2.substNonempty b hm.right
    simp only [Formula.substNonempty, Formula.Holds, haeval, hbeval]
    exact ⟨⟨ha, hb⟩, trivial⟩
  | .quant q x t f, h, hm => by
    simp only [Formula.substNonempty]
    split_ifs with hempty
    · -- No variable of the body is replaced.
      have hsame : (m.valuation I ρ).AgreeOn ρ (Formula.quant q x t f).freeVars := by
        intro z hz
        have hz' : z ∈ f.freeVars.members ∧ z ≠ x := by simpa [Formula.freeVars] using hz
        unfold Substitution.valuation
        rw [Substitution.image_of_below_isEmpty hempty hz'.1 hz'.2]
        rfl
      exact ⟨h.congr _ hsame, (Formula.holds_congr _ hsame).symm⟩
    · have hbody : ∀ v, t.Has v →
          (f.substNonempty (m.enter x f.freeVars).2).Elementary I
              (Function.update ρ (m.enter x f.freeVars).1 v) ∧
            ((f.substNonempty (m.enter x f.freeVars).2).Holds I
                (Function.update ρ (m.enter x f.freeVars).1 v) ↔
              f.Holds I (Function.update (m.valuation I ρ) x v)) := by
        intro v hv
        have hinner := m.valuation_enter (I := I) (ρ := ρ) x f.freeVars v
        obtain ⟨helem, hholds⟩ :=
          ((h v hv).congr f hinner.symm).substNonempty f (hm.enter v)
        exact ⟨helem, hholds.trans (f.holds_congr hinner)⟩
      refine ⟨fun v hv => (hbody v hv).1, ?_⟩
      cases q with
      | all => exact forall₂_congr fun v hv => (hbody v hv).2
      | some => exact exists_congr fun v => and_congr_right fun hv => (hbody v hv).2

end

/-- **The substitution lemma.** A substitution by elementary values in an elementary node has the meaning
of the node where all replaced variables denote, at once, what their replacements do. -/
theorem Substitution.meaning_subst {m : Substitution} (hm : ∀ x v, m.get? x = some v → v.Elementary I ρ) :
    (∀ f : Formula, f.Elementary I (m.valuation I ρ) →
      ((f.subst m).Holds I ρ ↔ f.Holds I (m.valuation I ρ))) ∧
    (∀ e : Expr, e.Elementary I (m.valuation I ρ) →
      (e.subst m).eval I ρ = e.eval I (m.valuation I ρ)) ∧
    ∀ v : Value, v.Elementary I (m.valuation I ρ) →
      (v.subst m).eval I ρ = v.eval I (m.valuation I ρ) := by
  have himages : ∀ xs : Names, m.Elementary I ρ xs := by
    intro xs x _
    unfold image
    cases hx : m.get? x with
    | none => trivial
    | some v => exact hm x v hx
  unfold Formula.subst Expr.subst Value.subst
  split_ifs with hempty
  · rw [valuation_of_isEmpty hempty]
    exact ⟨fun _ _ => Iff.rfl, fun _ _ => rfl, fun _ _ => rfl⟩
  · exact ⟨fun f hf => (hf.substNonempty f (himages _)).2, fun e he => (he.substNonempty e (himages _)).2,
      fun v hv => (hv.substNonempty v (himages _)).2⟩

/-- For every `y` there is a `y'1` such that `a[0]` is `x` and `y` is at most `x + y'1`. -/
def Formula.crowded : Formula :=
  .quant .all "y" .i32 (.quant .some "y'1" .i32
    (.and (.equal (.value (.place (.elem .array "a" (.int 0) none) none)) (.value (.var "x")))
      (.compare .le (.value (.var "y")) (.op .add (.value (.var "x")) (.value (.var "y'1"))))))

/-- Puts variables that `Formula.crowded` binds in the place of `x`, and a reference to an array with a
store in the place of `a`. -/
def Substitution.clashing : Substitution :=
  .ofList [("x", .expr (.op .add (.value (.var "y")) (.value (.var "y'1"))) none),
    ("a", .ref (.store .array (.array [.int 1, .int 2] none) (.int 0) (.int 7) none) false none)]

/-- Both binders are renamed, the outer one past a name that is taken, and the element that is stored is
read back. Literal arrays hold their first element outside their positions. -/
theorem Substitution.meaning_subst_clashing :
    Formula.crowded.subst clashing =
      .quant .all "y'2" .i32 (.quant .some "y'1'1" .i32
        (.and (.equal (.num 7) (.op .add (.value (.var "y")) (.value (.var "y'1"))))
          (.compare .le (.value (.var "y'2"))
            (.op .add (.op .add (.value (.var "y")) (.value (.var "y'1")))
              (.value (.var "y'1'1")))))) ∧
    ((Formula.crowded.subst clashing).Holds ⟨fun _ _ => .unit, fun _ _ => 0, fun vs => vs.headD .unit⟩
        (fun _ => .int 3) ↔
      Formula.crowded.Holds ⟨fun _ _ => .unit, fun _ _ => 0, fun vs => vs.headD .unit⟩
        (clashing.valuation ⟨fun _ _ => .unit, fun _ _ => 0, fun vs => vs.headD .unit⟩
          fun _ => .int 3)) := by
  refine ⟨by with_unfolding_all rfl, (meaning_subst ?_).1 Formula.crowded ?_⟩
  · intro x v hx
    have hmem : (x, v) ∈ [("a", Value.ref (.store .array (.array [.int 1, .int 2] none) (.int 0) (.int 7)
          none) false none), ("x", .expr (.op .add (.value (.var "y")) (.value (.var "y'1"))) none)] :=
      NameMap.mem_of_find hx
    simp only [List.mem_cons, Prod.mk.injEq, List.not_mem_nil, or_false] at hmem
    obtain ⟨-, rfl⟩ | ⟨-, rfl⟩ := hmem
    · exact ⟨⟨⟨trivial, trivial, trivial⟩, trivial, trivial⟩, trivial⟩
    · exact ⟨trivial, trivial⟩
  · intro y _ y' _
    exact ⟨⟨trivial, trivial⟩, trivial, trivial, trivial⟩

end Verdict
