import Verdict.Proofs.SideConditions
import Verdict.Smt.Query

/-! # Models of solver terms

A model says what the constants and functions of a query denote: integers, truth values and arrays,
which are total maps. The connectives, equality, conditionals, arrays and arithmetic have their usual
meaning. Division is Euclidean, and what division by zero gives is part of the model. A function without
arguments is written like a constant, so it denotes what the constant of its name does, and a binder of
that name captures it.

A query is satisfiable if all its assertions are true in some model that gives every declared name
something of its sort. -/

namespace Verdict

/-- What a solver term denotes. -/
inductive Datum where
  | int (n : ℤ)
  | bool (b : Bool)
  | array (content : ℤ → Datum)

namespace Datum

/-- The integer that is denoted, and zero for anything else. -/
def toInt : Datum → ℤ
  | int n => n
  | _ => 0

/-- Whether truth is denoted. -/
def isTrue : Datum → Bool
  | bool b => b
  | _ => false

/-- The element of an array. -/
def get : Datum → ℤ → Datum
  | array f, i => f i
  | d, _ => d

/-- The array with one element replaced. -/
def put : Datum → ℤ → Datum → Datum
  | array f, i, d => array (Function.update f i d)
  | a, _, _ => a

end Datum

namespace SmtSort

/-- Whether something has a sort. -/
def Has : SmtSort → Datum → Prop
  | .int, d => ∃ n, d = .int n
  | .bool, d => ∃ b, d = .bool b
  | .array s, d => ∃ f, d = .array f ∧ ∀ i, s.Has (f i)

def HasAll (ss : List SmtSort) (ds : List Datum) : Prop := List.Forall₂ Has ss ds

end SmtSort

/-- What the names of a query denote. -/
structure SmtModel where
  const : String → Datum
  /-- The functions that have arguments. -/
  fn : String → List Datum → Datum
  /-- The result of a division or remainder by zero. -/
  byZero : Operator → ℤ → ℤ

namespace SmtModel

/-- The model in which a name denotes something else. -/
def bind (M : SmtModel) (x : String) (d : Datum) : SmtModel :=
  { M with const := Function.update M.const x d }

@[simp] theorem fn_bind (M : SmtModel) (x : String) (d : Datum) : (M.bind x d).fn = M.fn := rfl

@[simp] theorem byZero_bind (M : SmtModel) (x : String) (d : Datum) :
    (M.bind x d).byZero = M.byZero := rfl

theorem const_bind_of_ne (M : SmtModel) {x y : String} (d : Datum) (h : y ≠ x) :
    (M.bind x d).const y = M.const y := by
  simp [bind, Function.update_of_ne h]

@[simp] theorem const_bind_self (M : SmtModel) (x : String) (d : Datum) :
    (M.bind x d).const x = d := by
  simp [bind]

open Classical in
/-- The application of a function. -/
noncomputable def apply (M : SmtModel) (f : String) (ds : List Datum) : Datum :=
  match f, ds with
  | "and", ds => .bool (ds.all Datum.isTrue)
  | "or", ds => .bool (ds.any Datum.isTrue)
  | "not", [a] => .bool !a.isTrue
  | "=>", [a, b] => .bool (!a.isTrue || b.isTrue)
  | "=", [a, b] => .bool (decide (a = b))
  | "ite", [c, a, b] => if c.isTrue then a else b
  | "select", [a, i] => a.get i.toInt
  | "store", [a, i, d] => a.put i.toInt d
  | "+", [a, b] => .int (a.toInt + b.toInt)
  | "-", [a, b] => .int (a.toInt - b.toInt)
  | "*", [a, b] => .int (a.toInt * b.toInt)
  | "div", [a, b] => .int (if b.toInt = 0 then M.byZero .div a.toInt else a.toInt / b.toInt)
  | "mod", [a, b] => .int (if b.toInt = 0 then M.byZero .rem a.toInt else a.toInt % b.toInt)
  | ">=", [a, b] => .bool (decide (b.toInt ≤ a.toInt))
  | "<=", [a, b] => .bool (decide (a.toInt ≤ b.toInt))
  | ">", [a, b] => .bool (decide (b.toInt < a.toInt))
  | "<", [a, b] => .bool (decide (a.toInt < b.toInt))
  | f, [] => M.const f
  | f, ds => M.fn f ds

section

variable (M : SmtModel) (a b c : Datum) (ds : List Datum)

@[simp] theorem apply_and : M.apply "and" ds = .bool (ds.all Datum.isTrue) := rfl

@[simp] theorem apply_or : M.apply "or" ds = .bool (ds.any Datum.isTrue) := rfl

@[simp] theorem apply_not : M.apply "not" [a] = .bool !a.isTrue := rfl

@[simp] theorem apply_implies : M.apply "=>" [a, b] = .bool (!a.isTrue || b.isTrue) := rfl

open Classical in
@[simp] theorem apply_eq : M.apply "=" [a, b] = .bool (decide (a = b)) := rfl

@[simp] theorem apply_ite : M.apply "ite" [c, a, b] = if c.isTrue then a else b := rfl

@[simp] theorem apply_select : M.apply "select" [a, b] = a.get b.toInt := rfl

@[simp] theorem apply_store : M.apply "store" [a, b, c] = a.put b.toInt c := rfl

@[simp] theorem apply_add : M.apply "+" [a, b] = .int (a.toInt + b.toInt) := rfl

@[simp] theorem apply_sub : M.apply "-" [a, b] = .int (a.toInt - b.toInt) := rfl

@[simp] theorem apply_mul : M.apply "*" [a, b] = .int (a.toInt * b.toInt) := rfl

@[simp] theorem apply_div : M.apply "div" [a, b] =
    .int (if b.toInt = 0 then M.byZero .div a.toInt else a.toInt / b.toInt) := rfl

@[simp] theorem apply_mod : M.apply "mod" [a, b] =
    .int (if b.toInt = 0 then M.byZero .rem a.toInt else a.toInt % b.toInt) := rfl

end

/-- A name with a prime is not one of those with a fixed meaning. -/
theorem apply_of_prime (M : SmtModel) {f : String} (hf : '\'' ∈ f.toList) (ds : List Datum) :
    M.apply f ds = if ds = [] then M.const f else M.fn f ds := by
  unfold apply
  split <;> first | (exfalso; revert hf; decide) | simp_all

end SmtModel

namespace Term

open Classical in
mutual

/-- What a term denotes. -/
@[simp] noncomputable def eval (M : SmtModel) : Term → Datum
  | const x => M.const x
  | int n => .int n.toInt
  | lit b => .bool b
  | app f ts => M.apply f (evalAll M ts)
  | quant .all x s t => .bool (decide (∀ d, s.Has d → (t.eval (M.bind x d)).isTrue))
  | quant .some x s t => .bool (decide (∃ d, s.Has d ∧ (t.eval (M.bind x d)).isTrue))
  | constArray _ t => .array fun _ => t.eval M
  | absent => .bool false

@[simp] noncomputable def evalAll (M : SmtModel) : List Term → List Datum
  | [] => []
  | t :: ts => t.eval M :: evalAll M ts

end

def Holds (M : SmtModel) (t : Term) : Prop := (t.eval M).isTrue = true

variable {M : SmtModel}

theorem evalAll_eq_map (ts : List Term) : evalAll M ts = ts.map (eval M) := by
  induction ts with
  | nil => simp only [evalAll, List.map_nil]
  | cons t ts ih => simp only [evalAll, List.map_cons, ih]

/-! ### The terms that are made -/

theorem eq_lit_of_isLit {b : Bool} {t : Term} (h : t.isLit b = true) : t = lit b := by
  cases t <;> simp_all [isLit]

theorem eval_lit_of_isLit {b : Bool} {t : Term} (h : t.isLit b = true) : t.eval M = .bool b := by
  rw [eq_lit_of_isLit h, eval]

/-- Two terms are joined by an application, or one of them is neutral and left out. -/
theorem join_pair {P : Term → Prop} {fn : String} {neutral : Bool} {a b : Term} (happ : P (app fn [a, b]))
    (ha : b = lit neutral → P a) (hb : a = lit neutral → P b) : P (join fn neutral [a, b]) := by
  unfold join
  simp only [List.filter_cons, List.filter_nil, Bool.not_eq_true']
  split_ifs with h h' h'
  · exact happ
  · exact ha (eq_lit_of_isLit (by simpa using h'))
  · exact hb (eq_lit_of_isLit (by simpa using h))
  · obtain rfl := eq_lit_of_isLit (by simpa using h')
    exact hb (eq_lit_of_isLit (by simpa using h))

/-- Whether a term denotes the truth value of a proposition. -/
def Decides (M : SmtModel) (t : Term) (p : Prop) : Prop :=
  ∃ b : Bool, t.eval M = .bool b ∧ (b = true ↔ p)

namespace Decides

variable {a b c t : Term} {p q : Prop}

theorem holds_iff (h : t.Decides M p) : t.Holds M ↔ p := by
  obtain ⟨b, hb, hp⟩ := h
  rw [Holds, hb, Datum.isTrue, hp]

theorem congr (h : t.Decides M p) (hpq : p ↔ q) : t.Decides M q := by
  obtain ⟨b, hb, hp⟩ := h
  exact ⟨b, hb, hp.trans hpq⟩

theorem lit (b : Bool) : (Term.lit b).Decides M (b = true) := ⟨b, by rw [eval], Iff.rfl⟩

theorem and (ha : a.Decides M p) (hb : b.Decides M q) : (and [a, b]).Decides M (p ∧ q) := by
  obtain ⟨x, ha, hp⟩ := ha
  obtain ⟨y, hb, hq⟩ := hb
  refine ⟨x && y, join_pair (P := fun t => t.eval M = .bool (x && y)) ?_ ?_ ?_, by simp [hp, hq]⟩
  · simp [ha, hb, Datum.isTrue]
  · rintro rfl
    simp_all
  · rintro rfl
    simp_all

theorem or (ha : a.Decides M p) (hb : b.Decides M q) : (or [a, b]).Decides M (p ∨ q) := by
  obtain ⟨x, ha, hp⟩ := ha
  obtain ⟨y, hb, hq⟩ := hb
  refine ⟨x || y, join_pair (P := fun t => t.eval M = .bool (x || y)) ?_ ?_ ?_, by simp [hp, hq]⟩
  · simp [ha, hb, Datum.isTrue]
  · rintro rfl
    simp_all
  · rintro rfl
    simp_all

theorem not (ha : a.Decides M p) : a.not.Decides M (¬ p) := by
  obtain ⟨x, ha, hp⟩ := ha
  refine ⟨!x, ?_, by simp [← hp]⟩
  unfold Term.not
  split
  · simp_all
  · simp [ha, Datum.isTrue]

theorem implies (ha : a.Decides M p) (hb : b.Decides M q) : (implies a b).Decides M (p → q) := by
  obtain ⟨x, ha, hp⟩ := ha
  obtain ⟨y, hb, hq⟩ := hb
  refine ⟨!x || y, ?_, by cases x <;> simp_all⟩
  unfold Term.implies
  split_ifs with h
  · have hx := (eval_lit_of_isLit h).symm.trans ha
    simp_all
  · simp [ha, hb, Datum.isTrue]

open Classical in
theorem eq (a b : Term) : (eq a b).Decides M (a.eval M = b.eval M) :=
  ⟨decide (a.eval M = b.eval M), by simp [Term.eq], by simp⟩

end Decides

theorem eval_ite (c a b : Term) :
    (ite c a b).eval M = if (c.eval M).isTrue then a.eval M else b.eval M := by
  simp [ite]

open Classical in
theorem Decides.eval_ite {c a b : Term} {p : Prop} (hc : c.Decides M p) :
    (ite c a b).eval M = if p then a.eval M else b.eval M := by
  obtain ⟨x, hc, hp⟩ := hc
  rw [Term.eval_ite, hc, Datum.isTrue]
  simp only [hp]

theorem eval_select (a i : Term) : (select a i).eval M = (a.eval M).get (i.eval M).toInt := by
  simp [select]

theorem eval_store (a i d : Term) :
    (store a i d).eval M = (a.eval M).put (i.eval M).toInt (d.eval M) := by
  simp [store]

open Classical in
theorem holds_all {x : String} {s : SmtSort} {t : Term} :
    (quant .all x s t).Holds M ↔ ∀ d, s.Has d → t.Holds (M.bind x d) := by
  rw [Holds, eval]
  exact decide_eq_true_iff

end Term

/-! ### Satisfiable queries -/

/-- Whether a model gives every declared name something of its sort. -/
structure SmtModel.Obeys (M : SmtModel) (d : Declarations) : Prop where
  consts : ∀ x s, d.consts.get? x = some s → s.Has (M.const x)
  funs : ∀ f sig, d.funs.get? f = some sig →
    ∀ ds, SmtSort.HasAll sig.args ds → sig.result.Has (M.apply f ds)

/-- Whether all assertions of a query are true in some model, with given results of divisions by
zero. -/
def Query.Satisfiable (byZero : Operator → ℤ → ℤ) (q : Query) : Prop :=
  ∃ M : SmtModel, M.byZero = byZero ∧ M.Obeys q.declarations ∧ ∀ t ∈ q.assertions, t.Holds M

end Verdict
