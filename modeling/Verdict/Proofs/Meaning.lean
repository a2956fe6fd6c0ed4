import Verdict.Proofs.Names
import Verdict.Obligation.Generation

/-! # The meaning of values and formulas

A value denotes an integer, a logical value, unit, a tuple or an array, once its variables do. An array
is a total map together with the number of positions it really has; reading it elsewhere is possible
here, and ruled out by what it means for a value to be well-defined. References are transparent.
Arithmetic is that of the integers, with Euclidean division and remainder.

An interpretation says what the language leaves open: what functions compute, what division by zero
gives, and what a literal array holds outside its positions. -/

namespace Verdict

section Pointwise

variable {α β : Type} {R : α → β → Prop} {as : List α} {bs : List β} {n : ℕ} {b : β}

theorem exists_getElem?_of_forall₂ (h : List.Forall₂ R as bs) (hb : bs[n]? = some b) :
    ∃ a, as[n]? = some a ∧ R a b := by
  induction h generalizing n with
  | nil => simp at hb
  | cons hab _ ih =>
    cases n with
    | zero =>
      obtain rfl := Option.some.inj hb
      exact ⟨_, rfl, hab⟩
    | succ n => exact ih hb

theorem forall₂_set (h : List.Forall₂ R as bs) (hb : bs[n]? = some b) {a : α} (hab : R a b) :
    List.Forall₂ R (as.set n a) bs := by
  induction h generalizing n with
  | nil => exact .nil
  | cons hab' hrest ih =>
    cases n with
    | zero =>
      obtain rfl := Option.some.inj hb
      exact .cons hab hrest
    | succ n => exact .cons hab' (ih hb)

end Pointwise

/-- What a value denotes. -/
inductive Val where
  | int (n : ℤ)
  | bool (b : Bool)
  | unit
  | tuple (elements : List Val)
  | array (length : ℕ) (content : ℤ → Val)

namespace Val

/-- The integer that is denoted, and zero for anything else. -/
def toInt : Val → ℤ
  | int n => n
  | _ => 0

/-- The element of a tuple or array at a position. -/
def get : Val → ℤ → Val
  | tuple vs, i => if 0 ≤ i then (vs[i.toNat]?).getD unit else unit
  | array _ f, i => f i
  | _, _ => unit

/-- The tuple or array with the element at a position replaced. -/
def put : Val → ℤ → Val → Val
  | tuple vs, i, w => if 0 ≤ i then tuple (vs.set i.toNat w) else tuple vs
  | array n f, i, w => array n (Function.update f i w)
  | v, _, _ => v

/-- Whether a position is one of an array. -/
def InRange : Val → ℤ → Prop
  | array n _, i => 0 ≤ i ∧ i < n
  | _, _ => False

/-- The order of integers and of logical values, of which falsehood is the smaller one. -/
def Le : Val → Val → Prop
  | int n, int m => n ≤ m
  | bool a, bool b => a = true → b = true
  | _, _ => False

/-- The strict order of integers and of logical values. -/
def Lt : Val → Val → Prop
  | int n, int m => n < m
  | bool a, bool b => a = false ∧ b = true
  | _, _ => False

mutual

/-- The value of the same type in which everything is zero or false. -/
def blank : Val → Val
  | int _ => int 0
  | bool _ => bool false
  | unit => unit
  | tuple vs => tuple (blankAll vs)
  | array n f => array n fun _ => (f 0).blank

/-- The blank values of the same types as some values. -/
def blankAll : List Val → List Val
  | [] => []
  | v :: vs => v.blank :: blankAll vs

end

end Val

/-! ### The values of a type -/

namespace Ty

mutual

/-- Whether a type has a value. References are transparent, and no value has an unknown type. -/
def Has : Ty → Val → Prop
  | .bool, v => ∃ b, v = .bool b
  | .i32, v => ∃ n, v = .int n
  | .unit, v => v = .unit
  | .unknown, _ => False
  | .tuple ts, v => ∃ vs, v = .tuple vs ∧ HasAll ts vs
  | .array t n, v => ∃ f, v = .array n f ∧ ∀ i, t.Has (f i)
  | .ref t _, v => t.Has v

/-- Whether types have values, one each. -/
def HasAll : List Ty → List Val → Prop
  | [], vs => vs = []
  | t :: ts, vs => ∃ w ws, vs = w :: ws ∧ t.Has w ∧ HasAll ts ws

end

mutual

/-- A type without the references in it. -/
def bare : Ty → Ty
  | .bool => .bool
  | .i32 => .i32
  | .unit => .unit
  | .unknown => .unknown
  | .tuple ts => .tuple (bareAll ts)
  | .array t n => .array t.bare n
  | .ref t _ => t.bare

/-- Types without the references in them. -/
def bareAll : List Ty → List Ty
  | [] => []
  | t :: ts => t.bare :: bareAll ts

end

theorem bareAll_eq_map (ts : List Ty) : bareAll ts = ts.map bare := by
  induction ts with
  | nil => rfl
  | cons t ts ih => rw [bareAll, ih, List.map_cons]

mutual

/-- The value of a type in which everything is zero or false. -/
def blank : Ty → Val
  | .bool => .bool false
  | .i32 => .int 0
  | .unit => .unit
  | .unknown => .unit
  | .tuple ts => .tuple (blankAll ts)
  | .array t n => .array n fun _ => t.blank
  | .ref t _ => t.blank

/-- The blank values of types. -/
def blankAll : List Ty → List Val
  | [] => []
  | t :: ts => t.blank :: blankAll ts

end

mutual

theorem has_bare : ∀ (t : Ty) (v : Val), t.bare.Has v ↔ t.Has v
  | .bool, v | .i32, v | .unit, v | .unknown, v => by simp [bare]
  | .tuple ts, v => by simp only [bare, Has, hasAll_bareAll ts]
  | .array t n, v | .ref t m, v => by simp only [bare, Has, has_bare t]

theorem hasAll_bareAll : ∀ (ts : List Ty) (vs : List Val), HasAll (bareAll ts) vs ↔ HasAll ts vs
  | [], vs => by simp [bareAll]
  | t :: ts, vs => by simp only [bareAll, HasAll, has_bare t, hasAll_bareAll ts]

end

mutual

theorem has_blank : ∀ t : Ty, t.hasUnknown = false → t.Has t.blank
  | .bool, _ | .i32, _ | .unit, _ => by simp [blank, Has]
  | .unknown, h => by simp [hasUnknown] at h
  | .tuple ts, h => by
    simpa [blank, Has] using hasAll_blankAll ts h
  | .array t n, h => ⟨_, rfl, fun _ => has_blank t h⟩
  | .ref t m, h => by
    simpa [blank, Has] using has_blank t h

theorem hasAll_blankAll : ∀ ts : List Ty, anyUnknown ts = false → HasAll ts (blankAll ts)
  | [], _ => by simp [blankAll, HasAll]
  | t :: ts, h => by
    simp only [anyUnknown, Bool.or_eq_false_iff] at h
    exact ⟨_, _, rfl, has_blank t h.1, hasAll_blankAll ts h.2⟩

end

mutual

/-- All values of a type have the same blank value. -/
theorem blank_of_has : ∀ (t : Ty) (v : Val), t.Has v → v.blank = t.blank
  | .bool, v, h => by obtain ⟨b, rfl⟩ := h; rfl
  | .i32, v, h => by obtain ⟨n, rfl⟩ := h; rfl
  | .unit, v, h => by obtain rfl := h; rfl
  | .unknown, v, h => by cases h
  | .tuple ts, v, h => by
    obtain ⟨vs, rfl, hvs⟩ := h
    simp only [Val.blank, blank, blankAll_of_hasAll ts vs hvs]
  | .array t n, v, h => by
    obtain ⟨f, rfl, hf⟩ := h
    simp only [Val.blank, blank, blank_of_has t (f 0) (hf 0)]
  | .ref t m, v, h => by
    simpa [blank] using blank_of_has t v h

theorem blankAll_of_hasAll : ∀ (ts : List Ty) (vs : List Val), HasAll ts vs →
    Val.blankAll vs = blankAll ts
  | [], vs, h => by simp only [HasAll] at h; subst h; rfl
  | t :: ts, vs, h => by
    obtain ⟨w, ws, rfl, hw, hws⟩ := h
    simp only [Val.blankAll, blankAll, blank_of_has t w hw, blankAll_of_hasAll ts ws hws]

end

mutual

/-- A type that has values is known. -/
theorem known_of_has : ∀ (t : Ty) (v : Val), t.Has v → t.hasUnknown = false
  | .bool, _, _ | .i32, _, _ | .unit, _, _ => rfl
  | .unknown, v, h => by cases h
  | .tuple ts, v, h => by
    obtain ⟨vs, rfl, hvs⟩ := h
    simpa only [hasUnknown] using known_of_hasAll ts vs hvs
  | .array t n, v, h => by
    obtain ⟨f, rfl, hf⟩ := h
    simpa only [hasUnknown] using known_of_has t (f 0) (hf 0)
  | .ref t m, v, h => by
    simpa only [hasUnknown] using known_of_has t v h

theorem known_of_hasAll : ∀ (ts : List Ty) (vs : List Val), HasAll ts vs → anyUnknown ts = false
  | [], _, _ => rfl
  | t :: ts, vs, h => by
    obtain ⟨w, ws, rfl, hw, hws⟩ := h
    simp only [anyUnknown, known_of_has t w hw, known_of_hasAll ts ws hws, Bool.or_self]

end

variable {vs : List Val} {ts : List Ty}

theorem hasAll_iff : HasAll ts vs ↔ List.Forall₂ (fun v t => t.Has v) vs ts := by
  induction ts generalizing vs with
  | nil => simp [HasAll]
  | cons t ts ih =>
    simp only [HasAll, List.forall₂_cons_right_iff, ih]
    constructor
    · rintro ⟨w, ws, rfl, hw, hws⟩
      exact ⟨w, ws, hw, hws, rfl⟩
    · rintro ⟨w, ws, hw, hws, rfl⟩
      exact ⟨w, ws, rfl, hw, hws⟩

/-- The element at a position of a tuple has the type at that position. -/
theorem HasAll.getElem? (h : HasAll ts vs) {i : ℕ} {t : Ty} (ht : ts[i]? = some t) :
    ∃ v, vs[i]? = some v ∧ t.Has v :=
  exists_getElem?_of_forall₂ (hasAll_iff.mp h) ht

theorem HasAll.length_eq (h : HasAll ts vs) : vs.length = ts.length := (hasAll_iff.mp h).length_eq

theorem HasAll.set (h : HasAll ts vs) {i : ℕ} {t : Ty} {w : Val} (ht : ts[i]? = some t) (hw : t.Has w) :
    HasAll ts (vs.set i w) :=
  hasAll_iff.mpr (forall₂_set (hasAll_iff.mp h) ht hw)

end Ty

/-! ### Meanings -/

/-- What each name denotes. -/
abbrev Valuation := String → Val

/-- What the language leaves open. -/
structure Interp where
  /-- The result of a function for some arguments. -/
  call : String → List Val → Val
  /-- The result of a division or remainder by zero. -/
  byZero : Operator → ℤ → ℤ
  /-- What a literal array of some elements holds outside its positions. -/
  outside : List Val → Val

namespace Interp

/-- The interpretation in which a literal array holds a blank value of its element type outside its
positions. -/
def plain (call : String → List Val → Val) (byZero : Operator → ℤ → ℤ) : Interp :=
  ⟨call, byZero, fun vs => (vs.headD .unit).blank⟩

/-- The result of an operation. -/
def operate (I : Interp) : Operator → ℤ → ℤ → ℤ
  | .add, n, m => n + m
  | .sub, n, m => n - m
  | .mul, n, m => n * m
  | .div, n, m => if m = 0 then I.byZero .div n else n / m
  | .rem, n, m => if m = 0 then I.byZero .rem n else n % m

/-- The array of some elements. -/
def literal (I : Interp) (vs : List Val) : Val :=
  .array vs.length fun i => if 0 ≤ i then (vs[i.toNat]?).getD (I.outside vs) else I.outside vs

end Interp

/-- The meaning of a comparison. -/
def Comparison.Holds : Comparison → Val → Val → Prop
  | .ge, v, w => w.Le v
  | .le, v, w => v.Le w
  | .gt, v, w => w.Lt v
  | .lt, v, w => v.Lt w

open Classical in
mutual

/-- What is read from a place. -/
noncomputable def Place.eval (I : Interp) (ρ : Valuation) : Place → Val
  | .name x _ => ρ x
  | .wildcard _ => .unit
  | .elem _ x i _ => (ρ x).get (i.eval I ρ).toInt

/-- What a value denotes. -/
noncomputable def Value.eval (I : Interp) (ρ : Valuation) : Value → Val
  | .expr e _ => e.eval I ρ
  | .formula f _ => .bool (decide (f.Holds I ρ))
  | .place p _ => p.eval I ρ
  | .tuple vs _ => .tuple (Value.evalAll I ρ vs)
  | .array vs _ => I.literal (Value.evalAll I ρ vs)
  | .call f vs _ => I.call f (Value.evalAll I ρ vs)
  | .ref v _ _ => v.eval I ρ
  | .deref v _ => v.eval I ρ
  | .unit _ => .unit
  | .ite c t e _ => if c.Holds I ρ then t.eval I ρ else e.eval I ρ
  | .select _ b i _ => (b.eval I ρ).get (i.eval I ρ).toInt
  | .store _ b i e _ => (b.eval I ρ).put (i.eval I ρ).toInt (e.eval I ρ)
  | .missing => .unit

noncomputable def Value.evalAll (I : Interp) (ρ : Valuation) : List Value → List Val
  | [] => []
  | v :: vs => v.eval I ρ :: Value.evalAll I ρ vs

/-- What an expression denotes, which may stand for a value of any type. -/
noncomputable def Expr.eval (I : Interp) (ρ : Valuation) : Expr → Val
  | .num n => .int n.toInt
  | .value v => v.eval I ρ
  | .op o a b => .int (I.operate o (a.eval I ρ).toInt (b.eval I ρ).toInt)

/-- Whether a formula is true. -/
noncomputable def Formula.Holds (I : Interp) (ρ : Valuation) : Formula → Prop
  | .lit b => b = true
  | .and f g => f.Holds I ρ ∧ g.Holds I ρ
  | .or f g => f.Holds I ρ ∨ g.Holds I ρ
  | .not f => ¬ f.Holds I ρ
  | .value v => v.eval I ρ = .bool true
  | .equal a b => a.eval I ρ = b.eval I ρ
  | .compare c a b => c.Holds (a.eval I ρ) (b.eval I ρ)
  | .quant .all x t f => ∀ v, t.Has v → f.Holds I (Function.update ρ x v)
  | .quant .some x t f => ∃ v, t.Has v ∧ f.Holds I (Function.update ρ x v)

end

/-- Whether an operation can be carried out with a second operand. -/
def Operator.Allows : Operator → ℤ → Prop
  | .div, m | .rem, m => m ≠ 0
  | _, _ => True

mutual

/-- Whether reading a place evaluates no division by zero and no position outside an array. -/
def Place.Defined (I : Interp) (ρ : Valuation) : Place → Prop
  | .name _ _ | .wildcard _ => True
  | .elem .array x i _ => i.Defined I ρ ∧ (ρ x).InRange (i.eval I ρ).toInt
  | .elem .tuple _ i _ => i.Defined I ρ

/-- Whether a value is well-defined. Of a conditional value, only the side that is chosen is
evaluated. -/
def Value.Defined (I : Interp) (ρ : Valuation) : Value → Prop
  | .expr e _ => e.Defined I ρ
  | .formula f _ => f.Defined I ρ
  | .place p _ => p.Defined I ρ
  | .tuple vs _ => Value.AllDefined I ρ vs
  | .array vs _ => Value.AllDefined I ρ vs
  | .call _ vs _ => Value.AllDefined I ρ vs
  | .ref v _ _ => v.Defined I ρ
  | .deref v _ => v.Defined I ρ
  | .unit _ | .missing => True
  | .ite c t e _ =>
    c.Defined I ρ ∧ (c.Holds I ρ → t.Defined I ρ) ∧ (¬ c.Holds I ρ → e.Defined I ρ)
  | .select .array b i _ =>
    b.Defined I ρ ∧ i.Defined I ρ ∧ (b.eval I ρ).InRange (i.eval I ρ).toInt
  | .select .tuple b i _ => b.Defined I ρ ∧ i.Defined I ρ
  | .store _ b i e _ => b.Defined I ρ ∧ i.Defined I ρ ∧ e.Defined I ρ

def Value.AllDefined (I : Interp) (ρ : Valuation) : List Value → Prop
  | [] => True
  | v :: vs => v.Defined I ρ ∧ Value.AllDefined I ρ vs

def Expr.Defined (I : Interp) (ρ : Valuation) : Expr → Prop
  | .num _ => True
  | .value v => v.Defined I ρ
  | .op o a b => a.Defined I ρ ∧ b.Defined I ρ ∧ o.Allows (b.eval I ρ).toInt

/-- Whether a formula is well-defined. The right side of a conjunction is evaluated only if the left
one is true, that of a disjunction only if it is false, and the body of a quantifier for all values of
its variable. -/
def Formula.Defined (I : Interp) (ρ : Valuation) : Formula → Prop
  | .lit _ => True
  | .and f g => f.Defined I ρ ∧ (f.Holds I ρ → g.Defined I ρ)
  | .or f g => f.Defined I ρ ∧ (¬ f.Holds I ρ → g.Defined I ρ)
  | .not f => f.Defined I ρ
  | .value v => v.Defined I ρ
  | .equal a b => a.Defined I ρ ∧ b.Defined I ρ
  | .compare _ a b => a.Defined I ρ ∧ b.Defined I ρ
  | .quant _ x t f => ∀ v, t.Has v → f.Defined I (Function.update ρ x v)

end

/-- Whether names denote values of the types that they are declared with. -/
def Valuation.Fits (ρ : Valuation) (vars : NameMap Ty) : Prop :=
  ∀ x t, vars.get? x = some t → t.Has (ρ x)

/-- Whether an obligation is true, whatever its symbolic constants denote. -/
def Obligation.Holds (I : Interp) (o : Obligation) : Prop :=
  ∀ ρ : Valuation, ρ.Fits o.scope.vars → o.formula.Holds I ρ

/-- Whether two values that are taken for one another mean the same. -/
def Alike.Same (I : Interp) (a : Alike) : Prop :=
  ∀ ρ : Valuation, ρ.Fits a.vars → a.left.eval I ρ = a.right.eval I ρ

/-- Whether all values that are taken for one another mean the same. -/
def Interp.Equates (I : Interp) (as : List Alike) : Prop := ∀ a ∈ as, a.Same I

namespace Interp.Equates

variable {I : Interp} {as bs : List Alike}

theorem left (h : I.Equates (as ++ bs)) : I.Equates as := (List.forall_mem_append.mp h).1

theorem right (h : I.Equates (as ++ bs)) : I.Equates bs := (List.forall_mem_append.mp h).2

theorem of_subset (h : I.Equates bs) (hsub : ∀ a ∈ as, a ∈ bs) : I.Equates as :=
  fun a ha => h a (hsub a ha)

end Interp.Equates

end Verdict
