import Verdict.Proofs.Representation
import Verdict.Proofs.Substitution

/-! # Kinds of values

What a value becomes for the solver depends only on the sorts of its parts: one term of a sort, or one
array for each sort of the elements of a tuple. This is its kind. A node is well-sorted in a scope if
all its parts have the kinds that are asked of them, where tuples are not nested and bound variables do
not have the names that the solver needs for parts of tuples and for functions. Lengths of arrays do not
matter.

Substitution of values that have the kinds of the variables keeps nodes well-sorted
(`Value.HasKind.subst`). -/

namespace Verdict

open Encoding

/-- What the values of a type become for the solver. -/
inductive Kind where
  | unit
  | scalar (sort : SmtSort)
  /-- A tuple, by the sorts of its elements. -/
  | tuple (sorts : List SmtSort)
deriving DecidableEq, Repr

variable {ss : List SmtSort}

namespace Ty

/-- Whether types have sorts, one by one. -/
abbrev HaveSorts : List Ty → List SmtSort → Prop := List.Forall₂ fun u s => u.sortOf = .ok s

/-- Whether the values of a type are of a kind. -/
def IsKind (t : Ty) : Kind → Prop
  | .unit => t.underlying = .unit
  | .scalar s => t.sortOf = .ok s
  | .tuple ss => ∃ ts, t.underlying = .tuple ts ∧ HaveSorts ts ss

theorem sortOf_of_underlying_unit : ∀ {t : Ty}, t.underlying = .unit → ∀ s, t.sortOf ≠ .ok s
  | .ref t m, h, s => fun hs => sortOf_of_underlying_unit (t := t) h s (sortOf_ref.mp hs)
  | .unit, h, s => by simp [sortOf]
  | .bool, h, s | .i32, h, s | .tuple _, h, s | .unknown, h, s | .array _ _, h, s => by
    simp [underlying] at h

/-- A type whose sort is that of arrays is an array type behind references. -/
theorem underlying_of_sortOf_array : ∀ {t : Ty} {s : SmtSort}, t.sortOf = .ok (.array s) →
    ∃ e n, t.underlying = .array e n ∧ e.sortOf = .ok s
  | .ref t m, s, h => underlying_of_sortOf_array (t := t) (sortOf_ref.mp h)
  | .array e n, s, h => by
    obtain ⟨s', hs, he⟩ := sortOf_array.mp h
    cases hs
    exact ⟨e, n, rfl, he⟩
  | .bool, s, h | .i32, s, h | .unit, s, h | .tuple _, s, h | .unknown, s, h => by
    simp [sortOf] at h

theorem haveSorts_unique {ts : List Ty} {ss' : List SmtSort} (h : HaveSorts ts ss) (h' : HaveSorts ts ss') :
    ss = ss' := by
  induction h generalizing ss' with
  | nil =>
    cases h'
    rfl
  | cons hs _ ih =>
    obtain _ | ⟨hs', hrest⟩ := h'
    rw [ok_unique hs hs', ih hrest]

theorem getElem?_of_haveSorts {ts : List Ty} (h : HaveSorts ts ss) :
    ∀ {n : ℕ} {s : SmtSort}, ss[n]? = some s → ∃ u, ts[n]? = some u ∧ u.sortOf = .ok s := by
  induction h with
  | nil => simp
  | cons hs _ ih =>
    intro n s hn
    cases n with
    | zero =>
      obtain rfl := Option.some.inj hn
      exact ⟨_, rfl, hs⟩
    | succ n => exact ih hn

variable {t : Ty} {k : Kind}

theorem IsKind.unique {k' : Kind} (h : t.IsKind k) (h' : t.IsKind k') : k = k' := by
  cases k with
  | unit =>
    cases k' with
    | unit => rfl
    | scalar s => exact absurd h' (sortOf_of_underlying_unit h s)
    | tuple ss =>
      obtain ⟨ts, hts, -⟩ := h'
      cases h.symm.trans hts
  | scalar s =>
    cases k' with
    | unit => exact absurd h (sortOf_of_underlying_unit h' s)
    | scalar s' => rw [ok_unique h h']
    | tuple ss =>
      obtain ⟨ts, hts, -⟩ := h'
      exact absurd h (sortOf_of_underlying_tuple hts s)
  | tuple ss =>
    obtain ⟨ts, hts, hss⟩ := h
    cases k' with
    | unit => cases h'.symm.trans hts
    | scalar s => exact absurd h' (sortOf_of_underlying_tuple hts s)
    | tuple ss' =>
      obtain ⟨ts', hts', hss'⟩ := h'
      cases hts.symm.trans hts'
      rw [haveSorts_unique hss hss']

theorem isKind_ref {m : Bool} : (Ty.ref t m).IsKind k ↔ t.IsKind k := by
  cases k with
  | unit => exact Iff.rfl
  | scalar s => exact sortOf_ref
  | tuple ss => exact Iff.rfl

theorem IsKind.deref (h : t.IsKind k) : t.deref.IsKind k := by
  cases t with
  | ref t m => exact isKind_ref.mp h
  | _ => exact h

end Ty

/-- Whether a name is none that the solver needs for a part of a tuple or for a function. -/
def Encoding.IsPlain (x : String) : Prop := (∀ y s, x ≠ partName y s) ∧ ∀ f, x ≠ functionName f

/-- Whether a variable of a scope is of a kind. -/
def Scope.Gives (Γ : Scope) (x : String) (k : Kind) : Prop := ∃ t, Γ.type? x = some t ∧ t.IsKind k

/-- Whether a function takes arguments of some kinds to results of a kind. Nothing is passed for a value
of the unit type, so that there is none among the arguments of a call that is encoded. -/
structure Function.Takes (g : Function) (ks : List Kind) (k : Kind) : Prop where
  inputs : List.Forall₂ Ty.IsKind (g.inputs.map Declaration.type) ks
  output : g.output.IsKind k
  units : k = .unit ∨ .unit ∉ ks

mutual

/-- Whether a place can be read, and is of a kind. -/
def Place.HasKind (Γ : Scope) : Place → Kind → Prop
  | .name x _, k => Γ.Gives x k
  | .wildcard _, _ => False
  | .elem .array x i _, k =>
    ∃ s, k = .scalar s ∧ Γ.Gives x (.scalar (.array s)) ∧ i.HasKind Γ (.scalar .int)
  | .elem .tuple x i _, k =>
    ∃ ss n s, k = .scalar s ∧ Γ.Gives x (.tuple ss) ∧ i.constantIndex? = some n ∧ ss[n]? = some s

/-- Whether a value is well-sorted, and of a kind. -/
def Value.HasKind (Γ : Scope) : Value → Kind → Prop
  | .expr a _, k => k = .scalar .int ∧ a.HasSort Γ .int
  | .formula f _, k => k = .scalar .bool ∧ f.IsSorted Γ
  | .place p _, k => p.HasKind Γ k
  | .tuple vs _, k => ∃ ss, k = .tuple ss ∧ Value.HaveKinds Γ vs (ss.map .scalar)
  | .array vs _, k =>
    ∃ s, k = .scalar (.array s) ∧ vs ≠ [] ∧
      Value.HaveKinds Γ vs (List.replicate vs.length (.scalar s))
  | .call f vs _, k =>
    ∃ g ks, Γ.function? f = some g ∧ g.Takes ks k ∧ Value.HaveKinds Γ vs ks
  | .ref v _ _, k => v.HasKind Γ k
  | .deref v _, k => v.HasKind Γ k
  | .unit _, k => k = .unit
  | .ite c v w _, k => c.IsSorted Γ ∧ v.HasKind Γ k ∧ w.HasKind Γ k
  | .select .array b i _, k =>
    ∃ s, k = .scalar s ∧ b.HasKind Γ (.scalar (.array s)) ∧ i.HasKind Γ (.scalar .int)
  | .select .tuple b i _, k =>
    ∃ ss n s, k = .scalar s ∧ b.HasKind Γ (.tuple ss) ∧ i.constantIndex? = some n ∧ ss[n]? = some s
  | .store .array b i v _, k =>
    ∃ s, k = .scalar (.array s) ∧ b.HasKind Γ k ∧ i.HasKind Γ (.scalar .int) ∧
      v.HasKind Γ (.scalar s)
  | .store .tuple b i v _, k =>
    ∃ ss n s, k = .tuple ss ∧ b.HasKind Γ k ∧ i.constantIndex? = some n ∧ ss[n]? = some s ∧
      v.HasKind Γ (.scalar s)
  | .missing, _ => False

/-- Whether values are well-sorted, one of each kind. -/
def Value.HaveKinds (Γ : Scope) : List Value → List Kind → Prop
  | [], ks => ks = []
  | v :: vs, ks => ∃ k ks', ks = k :: ks' ∧ v.HasKind Γ k ∧ Value.HaveKinds Γ vs ks'

/-- Whether an expression is well-sorted, and of a sort. -/
def Expr.HasSort (Γ : Scope) : Expr → SmtSort → Prop
  | .num _, s => s = .int
  | .value v, s => v.HasKind Γ (.scalar s)
  | .op _ a b, s => s = .int ∧ a.HasSort Γ .int ∧ b.HasSort Γ .int

/-- Whether a formula is well-sorted. Arrays can be equated, but they have no order. -/
def Formula.IsSorted (Γ : Scope) : Formula → Prop
  | .lit _ => True
  | .and f g => f.IsSorted Γ ∧ g.IsSorted Γ
  | .or f g => f.IsSorted Γ ∧ g.IsSorted Γ
  | .not f => f.IsSorted Γ
  | .value v => v.HasKind Γ (.scalar .bool)
  | .equal a b => ∃ s, a.HasSort Γ s ∧ b.HasSort Γ s
  | .compare _ a b => ∃ s, (s = .int ∨ s = .bool) ∧ a.HasSort Γ s ∧ b.HasSort Γ s
  | .quant _ x t f => IsPlain x ∧ (∃ s, t.sortOf = .ok s) ∧ f.IsSorted (Γ.declare x t)

end

variable {Γ Δ : Scope} {n : ℕ} {f : Formula}

/-! ### Other scopes -/

/-- Whether a second scope gives some variables the kinds that they have in a first one, and knows all its
functions. -/
structure Scope.AgreesOn (Γ Δ : Scope) (xs : Names) : Prop where
  vars : ∀ x ∈ xs.members, ∀ k, Γ.Gives x k → Δ.Gives x k
  functions : ∀ f g, Γ.function? f = some g → Δ.function? f = some g

namespace Scope.AgreesOn

variable {xs : Names}

theorem left {ys : Names} (h : Γ.AgreesOn Δ (xs.union ys)) : Γ.AgreesOn Δ xs :=
  ⟨fun x hx => h.vars x (by simp [hx]), h.functions⟩

theorem right {ys : Names} (h : Γ.AgreesOn Δ (xs.union ys)) : Γ.AgreesOn Δ ys :=
  ⟨fun x hx => h.vars x (by simp [hx]), h.functions⟩

theorem declare {x : String} (h : Γ.AgreesOn Δ (xs.erase x)) (t : Ty) :
    (Γ.declare x t).AgreesOn (Δ.declare x t) xs := by
  refine ⟨fun y hy k => ?_, h.functions⟩
  simp only [Gives, type?_declare]
  split_ifs with hxy
  · exact id
  · exact h.vars y (by simp [hy, Ne.symm hxy]) k

end Scope.AgreesOn

mutual

theorem Place.HasKind.extend (p : Place) {Γ Δ k} (h : p.HasKind Γ k) (hΓ : Γ.AgreesOn Δ p.freeVars) :
    p.HasKind Δ k :=
  match p, h, hΓ with
  | .name x _, h, hΓ => hΓ.vars x (by simp [Place.freeVars]) k h
  | .wildcard _, h, _ => h
  | .elem .array x i _, h, hΓ => by
    obtain ⟨s, rfl, hx, hi⟩ := h
    exact ⟨s, rfl, hΓ.vars x (by simp [Place.freeVars]) _ hx, hi.extend i hΓ.right⟩
  | .elem .tuple x i _, h, hΓ => by
    obtain ⟨ss, n, s, rfl, hx, hn⟩ := h
    exact ⟨ss, n, s, rfl, hΓ.vars x (by simp [Place.freeVars]) _ hx, hn⟩

theorem Value.HasKind.extend (v : Value) {Γ Δ k} (h : v.HasKind Γ k) (hΓ : Γ.AgreesOn Δ v.freeVars) :
    v.HasKind Δ k :=
  match v, h, hΓ with
  | .expr a _, h, hΓ => ⟨h.1, h.2.extend a hΓ⟩
  | .formula f _, h, hΓ => ⟨h.1, h.2.extend f hΓ⟩
  | .place p _, h, hΓ => Place.HasKind.extend p h hΓ
  | .tuple vs _, h, hΓ => by
    obtain ⟨ss, rfl, hvs⟩ := h
    exact ⟨ss, rfl, Value.HaveKinds.extend vs hvs hΓ⟩
  | .array vs _, h, hΓ => by
    obtain ⟨s, rfl, hne, hvs⟩ := h
    exact ⟨s, rfl, hne, Value.HaveKinds.extend vs hvs hΓ⟩
  | .call f vs _, h, hΓ => by
    obtain ⟨g, ks, hg, hks, hvs⟩ := h
    exact ⟨g, ks, hΓ.functions f g hg, hks, Value.HaveKinds.extend vs hvs hΓ⟩
  | .ref v _ _, h, hΓ | .deref v _, h, hΓ => Value.HasKind.extend v h hΓ
  | .unit _, h, _ => h
  | .ite c v w _, h, hΓ =>
    ⟨h.1.extend c hΓ.left.left, Value.HasKind.extend v h.2.1 hΓ.left.right,
      Value.HasKind.extend w h.2.2 hΓ.right⟩
  | .select .array b i _, h, hΓ => by
    obtain ⟨s, rfl, hb, hi⟩ := h
    exact ⟨s, rfl, hb.extend b hΓ.left, hi.extend i hΓ.right⟩
  | .select .tuple b i _, h, hΓ => by
    obtain ⟨ss, n, s, rfl, hb, hn⟩ := h
    exact ⟨ss, n, s, rfl, hb.extend b hΓ.left, hn⟩
  | .store .array b i v _, h, hΓ => by
    obtain ⟨s, rfl, hb, hi, hv⟩ := h
    exact ⟨s, rfl, hb.extend b hΓ.left.left, hi.extend i hΓ.left.right, hv.extend v hΓ.right⟩
  | .store .tuple b i v _, h, hΓ => by
    obtain ⟨ss, n, s, rfl, hb, hn, hs, hv⟩ := h
    exact ⟨ss, n, s, rfl, hb.extend b hΓ.left.left, hn, hs, hv.extend v hΓ.right⟩
  | .missing, h, _ => h

theorem Value.HaveKinds.extend (vs : List Value) {Γ Δ ks} (h : Value.HaveKinds Γ vs ks)
    (hΓ : Γ.AgreesOn Δ (Value.freeVarsAll vs)) : Value.HaveKinds Δ vs ks :=
  match vs, h, hΓ with
  | [], h, _ => h
  | v :: vs, h, hΓ => by
    obtain ⟨k, ks, rfl, hv, hvs⟩ := h
    exact ⟨k, ks, rfl, hv.extend v hΓ.left, Value.HaveKinds.extend vs hvs hΓ.right⟩

theorem Expr.HasSort.extend (a : Expr) {Γ Δ s} (h : a.HasSort Γ s) (hΓ : Γ.AgreesOn Δ a.freeVars) :
    a.HasSort Δ s :=
  match a, h, hΓ with
  | .num _, h, _ => h
  | .value v, h, hΓ => Value.HasKind.extend v h hΓ
  | .op _ a b, h, hΓ => ⟨h.1, h.2.1.extend a hΓ.left, h.2.2.extend b hΓ.right⟩

theorem Formula.IsSorted.extend (f : Formula) {Γ Δ : Scope} (h : f.IsSorted Γ)
    (hΓ : Γ.AgreesOn Δ f.freeVars) : f.IsSorted Δ :=
  match f, h, hΓ with
  | .lit _, h, _ => h
  | .and f g, h, hΓ | .or f g, h, hΓ => ⟨h.1.extend f hΓ.left, h.2.extend g hΓ.right⟩
  | .not f, h, hΓ => Formula.IsSorted.extend f h hΓ
  | .value v, h, hΓ => Value.HasKind.extend v h hΓ
  | .equal a b, h, hΓ => by
    obtain ⟨s, ha, hb⟩ := h
    exact ⟨s, ha.extend a hΓ.left, hb.extend b hΓ.right⟩
  | .compare _ a b, h, hΓ => by
    obtain ⟨s, hs, ha, hb⟩ := h
    exact ⟨s, hs, ha.extend a hΓ.left, hb.extend b hΓ.right⟩
  | .quant _ x t f, h, hΓ => ⟨h.1, h.2.1, h.2.2.extend f (hΓ.declare t)⟩

end

/-! ### Lists of values -/

namespace Value.HaveKinds

variable {vs : List Value} {ks : List Kind}

theorem forall₂ (h : HaveKinds Γ vs ks) : List.Forall₂ (HasKind Γ) vs ks := by
  induction vs generalizing ks with
  | nil =>
    obtain rfl : ks = [] := h
    exact .nil
  | cons v vs ih =>
    obtain ⟨k, ks, rfl, hv, hvs⟩ := h
    exact .cons hv (ih hvs)

theorem of_forall₂ (h : List.Forall₂ (HasKind Γ) vs ks) : HaveKinds Γ vs ks := by
  induction h with
  | nil => rfl
  | cons hv _ ih => exact ⟨_, _, rfl, hv, ih⟩

theorem getElem? (h : HaveKinds Γ vs ks) {n : ℕ} {k : Kind} (hk : ks[n]? = some k) :
    ∃ v, vs[n]? = some v ∧ v.HasKind Γ k :=
  exists_getElem?_of_forall₂ h.forall₂ hk

theorem length_eq (h : HaveKinds Γ vs ks) : vs.length = ks.length := h.forall₂.length_eq

theorem set (h : HaveKinds Γ vs ks) {n : ℕ} {k : Kind} {w : Value} (hk : ks[n]? = some k)
    (hw : w.HasKind Γ k) : HaveKinds Γ (vs.set n w) ks :=
  .of_forall₂ (forall₂_set h.forall₂ hk hw)

end Value.HaveKinds

/-! ### Expressions and formulas as values -/

variable {v : Value} {x : String}

theorem Value.hasKind_of_constantIndex (h : v.constantIndex? = some n) :
    v.HasKind Γ (.scalar .int) := by
  induction v, h using constantIndex_induction with
  | literal => exact ⟨rfl, rfl⟩
  | ref _ _ _ _ ih | deref _ _ _ ih => exact ih

theorem Value.HasKind.toExpr {s : SmtSort} (h : v.HasKind Γ (.scalar s)) : v.toExpr.HasSort Γ s := by
  cases v with
  | expr a o =>
    obtain ⟨hs, ha⟩ := h
    cases hs
    exact ha
  | _ => exact h

theorem Value.HasKind.toFormula (h : v.HasKind Γ (.scalar .bool)) : v.toFormula.IsSorted Γ := by
  cases v with
  | formula f o => exact h.2
  | _ => exact h

theorem Expr.HasSort.toValue {a : Expr} {s : SmtSort} (h : a.HasSort Γ s) :
    a.toValue.HasKind Γ (.scalar s) := by
  cases a with
  | num n => exact ⟨congrArg Kind.scalar h, rfl⟩
  | value v => exact h
  | op o a b => exact ⟨congrArg Kind.scalar h.1, rfl, h.2⟩

theorem Formula.IsSorted.toValue (h : f.IsSorted Γ) : f.toValue.HasKind Γ (.scalar .bool) := by
  cases f with
  | value v => exact h
  | _ => exact ⟨rfl, h⟩

theorem Formula.IsSorted.negate (h : f.IsSorted Γ) : f.negate.IsSorted Γ := by
  cases f <;> exact h

/-! ### Elements -/

namespace Value

variable {s : SmtSort} {i v : Value}

theorem hasKind_ternary {c : Formula} {w : Value} {k : Kind} (hc : c.IsSorted Γ) (hv : v.HasKind Γ k)
    (hw : w.HasKind Γ k) : (ternary c v w).HasKind Γ k := by
  unfold Value.ternary
  split_ifs
  · exact hv
  · exact hw
  · exact hv
  · exact ⟨hc, hv, hw⟩

theorem HasKind.of_store_array {s' : Shape} {b j e : Value} {o : Origin}
    (h : (Value.store s' b j e o).HasKind Γ (.scalar (.array s))) :
    b.HasKind Γ (.scalar (.array s)) ∧ e.HasKind Γ (.scalar s) := by
  cases s' with
  | tuple =>
    obtain ⟨ss, n, s', hk, -⟩ := h
    cases hk
  | array =>
    obtain ⟨s', hk, hb, -, he⟩ := h
    cases hk
    exact ⟨hb, he⟩

theorem HasKind.of_store_tuple {s' : Shape} {b j e : Value} {o : Origin}
    (h : (Value.store s' b j e o).HasKind Γ (.tuple ss)) :
    b.HasKind Γ (.tuple ss) ∧
      ∃ m s, j.constantIndex? = some m ∧ ss[m]? = some s ∧ e.HasKind Γ (.scalar s) := by
  cases s' with
  | array =>
    obtain ⟨s', hk, -⟩ := h
    cases hk
  | tuple =>
    obtain ⟨ss', m, s, hk, hb, hm, hs, he⟩ := h
    cases hk
    exact ⟨hb, m, s, hm, hs, he⟩

theorem Finds.hasKind_array {whole r : Value} (hr : Finds .array i whole v r)
    (hi : i.HasKind Γ (.scalar .int)) (h : v.HasKind Γ (.scalar (.array s)))
    (hw : whole.HasKind Γ (.scalar (.array s))) : r.HasKind Γ (.scalar s) := by
  induction hr with
  | ref _ ih | deref _ ih => exact ih h hw
  | name => exact ⟨s, rfl, h, hi⟩
  | tuple =>
    obtain ⟨ss, hk, -⟩ := h
    cases hk
  | array _ hn =>
    obtain ⟨s', hk, -, hvs⟩ := h
    cases hk
    have hlt := (List.getElem?_eq_some_iff.mp hn).1
    obtain ⟨w', hw', hkind⟩ := hvs.getElem? (List.getElem?_replicate_of_lt hlt)
    exact Option.mem_unique hn hw' ▸ hkind
  | hit => exact h.of_store_array.2
  | miss _ _ _ _ ih => exact ih h.of_store_array.1 h.of_store_array.1
  | ite hs => cases hs
  | select => exact ⟨s, rfl, hw, hi⟩

theorem Finds.hasKind_tuple {whole r : Value} (hr : Finds .tuple i whole v r)
    (hn : i.constantIndex? = some n) (hs : ss[n]? = some s) (h : v.HasKind Γ (.tuple ss))
    (hw : whole.HasKind Γ (.tuple ss)) : r.HasKind Γ (.scalar s) := by
  induction hr with
  | ref _ ih | deref _ ih => exact ih h hw
  | name => exact ⟨ss, n, s, rfl, h, hn, hs⟩
  | array =>
    obtain ⟨s', hk, -⟩ := h
    cases hk
  | tuple hn' hk =>
    obtain rfl := Option.mem_unique hn hn'
    obtain ⟨ss', hss, hvs⟩ := h
    cases hss
    obtain ⟨w, hw, hkind⟩ := hvs.getElem? (n := n) (k := .scalar s) (by simp [hs])
    exact Option.mem_unique hk hw ▸ hkind
  | hit hn' hj =>
    obtain ⟨-, m, s', hm, hs', hv⟩ := h.of_store_tuple
    obtain rfl := Option.mem_unique hn hn'
    obtain rfl := Option.mem_unique hj hm
    exact Option.mem_unique hs hs' ▸ hv
  | miss _ _ _ _ ih => exact ih h.of_store_tuple.1 h.of_store_tuple.1
  | ite _ _ _ ihv ihw => exact hasKind_ternary h.1 (ihv h.2.1 h.2.1) (ihw h.2.2 h.2.2)
  | select => exact ⟨ss, n, s, rfl, hw, hn, hs⟩

/-- What may be written to an element of a tuple or array of a kind. -/
theorem HasKind.update_array {b : Value} (hb : b.HasKind Γ (.scalar (.array s)))
    (hi : i.HasKind Γ (.scalar .int)) (hv : v.HasKind Γ (.scalar s)) :
    (update .array b i v).HasKind Γ (.scalar (.array s)) := by
  have hstore : (Value.store .array b i v none).HasKind Γ (.scalar (.array s)) := ⟨s, rfl, hb, hi, hv⟩
  unfold update
  split
  · next hshape _ => cases hshape
  · next vs o n _ _ =>
    split_ifs with hlt
    · obtain ⟨s', hk, hne, hvs⟩ := hb
      cases hk
      refine ⟨s, rfl, by simpa [← List.length_pos_iff] using hne, ?_⟩
      rw [List.length_set]
      exact hvs.set (List.getElem?_replicate_of_lt hlt) hv
    · exact hstore
  · exact hstore

theorem HasKind.update_tuple {b : Value} (hb : b.HasKind Γ (.tuple ss))
    (hn : i.constantIndex? = some n) (hs : ss[n]? = some s) (hv : v.HasKind Γ (.scalar s)) :
    (update .tuple b i v).HasKind Γ (.tuple ss) := by
  have hstore : (Value.store .tuple b i v none).HasKind Γ (.tuple ss) :=
    ⟨ss, n, s, rfl, hb, hn, hs, hv⟩
  unfold update
  split
  · next vs o m _ hm =>
    obtain rfl : n = m := Option.mem_unique hn hm
    split_ifs with hlt
    · obtain ⟨ss', hk, hvs⟩ := hb
      cases hk
      exact ⟨ss, rfl, hvs.set (k := .scalar s) (by simp [hs]) hv⟩
    · exact hstore
  · next hshape _ => cases hshape
  · exact hstore

end Value

/-! ### Substitution -/

/-- Whether replacements have, in a second scope, the kinds that a first scope gives to some
variables. -/
structure Substitution.KeepsKinds (m : Substitution) (Γ Δ : Scope) (xs : Names) : Prop where
  vars : ∀ x ∈ xs.members, ∀ k, Γ.Gives x k → (m.image x).HasKind Δ k
  functions : ∀ f g, Γ.function? f = some g → Δ.function? f = some g

namespace Substitution.KeepsKinds

variable {m : Substitution} {xs ys : Names}

theorem left (h : m.KeepsKinds Γ Δ (xs.union ys)) : m.KeepsKinds Γ Δ xs :=
  ⟨fun x hx => h.vars x (by simp [hx]), h.functions⟩

theorem right (h : m.KeepsKinds Γ Δ (xs.union ys)) : m.KeepsKinds Γ Δ ys :=
  ⟨fun x hx => h.vars x (by simp [hx]), h.functions⟩

theorem enter {t : Ty} (h : m.KeepsKinds Γ Δ (xs.erase x)) :
    (m.enter x xs).2.KeepsKinds (Γ.declare x t) (Δ.declare (m.enter x xs).1 t) xs := by
  refine ⟨fun z hz k hk => ?_, h.functions⟩
  obtain ⟨u, hu, hkind⟩ := hk
  rw [Scope.type?_declare] at hu
  split_ifs at hu with hxz
  · subst hxz
    cases hu
    rw [image_enter_self]
    exact ⟨t, by simp, hkind⟩
  · have hzx : z ≠ x := Ne.symm hxz
    rw [image_enter_of_ne m hz hzx]
    refine (h.vars z (by simp [hz, hzx]) k ⟨u, hu, hkind⟩).extend _ ⟨fun y hy k' hk' => ?_, fun _ _ => id⟩
    obtain ⟨w, hw, hkind'⟩ := hk'
    refine ⟨w, ?_, hkind'⟩
    rw [Scope.type?_declare, if_neg]
    · exact hw
    · rintro rfl
      exact enter_not_mem m hz hzx hy

/-- Variables that are not replaced keep their kinds. -/
theorem agreesOn (h : m.KeepsKinds Γ Δ xs) (hm : ∀ x ∈ xs.members, m.image x = .var x) :
    Γ.AgreesOn Δ xs := by
  refine ⟨fun x hx k hk => ?_, h.functions⟩
  have hvar := h.vars x hx k hk
  rwa [hm x hx] at hvar

end Substitution.KeepsKinds

theorem Encoding.isPlain_primed (x : String) (i : ℕ) : IsPlain (primed x i) :=
  ⟨fun y s => primed_ne_partName x y i s, fun f => primed_ne_functionName x f i⟩

theorem Encoding.isPlain_of_not_mem (h : '\'' ∉ x.toList) : IsPlain x := by
  refine ⟨fun y s hx => h ?_, fun f hx => h ?_⟩
  · exact hx ▸ prime_mem_partName y s
  · exact hx ▸ prime_mem_functionName f

/-- Symbolic constants have plain names. -/
theorem Encoding.isPlain_of_constant (h : '\'' ∉ x.toList ∨ ∃ y i, x = primed y i) : IsPlain x := by
  rcases h with hquote | ⟨y, i, rfl⟩
  · exact isPlain_of_not_mem hquote
  · exact isPlain_primed y i

/-- A binder is renamed to a primed name, if at all. -/
theorem Substitution.isPlain_enter (m : Substitution) (free : Names) (hx : IsPlain x) :
    IsPlain (m.enter x free).1 := by
  unfold enter
  dsimp only
  split_ifs
  · exact isPlain_primed _ _
  · exact hx

mutual

theorem Place.HasKind.substRead (p : Place) (o : Origin) {Γ Δ m k} (h : p.HasKind Γ k)
    (hm : m.KeepsKinds Γ Δ p.freeVars) : (p.substRead m o).HasKind Δ k :=
  match p, h, hm with
  | .name x o', h, hm => by
    have hx := hm.vars x (by simp [Place.freeVars]) k h
    unfold Substitution.image at hx
    simp only [Place.substRead]
    cases hg : m.get? x with
    | none | some w =>
      rw [hg] at hx
      exact hx
  | .wildcard _, h, hm => h.elim
  | .elem .array x i _, h, hm => by
    obtain ⟨s, rfl, hx, hi⟩ := h
    have hx := hm.vars x (by simp [Place.freeVars]) _ hx
    exact Value.finds_elementOf.hasKind_array (hi.substNonempty i hm.right) hx hx
  | .elem .tuple x i _, h, hm => by
    obtain ⟨ss, n, s, rfl, hx, hn, hs⟩ := h
    have hx := hm.vars x (by simp [Place.freeVars]) _ hx
    exact Value.finds_elementOf.hasKind_tuple (Value.constantIndex?_subst m hn) hs hx hx

theorem Value.HasKind.substNonempty (v : Value) {Γ Δ m k} (h : v.HasKind Γ k)
    (hm : m.KeepsKinds Γ Δ v.freeVars) : (v.substNonempty m).HasKind Δ k :=
  match v, h, hm with
  | .expr a _, h, hm => by
    obtain ⟨rfl, ha⟩ := h
    exact (ha.substNonempty a hm).toValue
  | .formula f _, h, hm => by
    obtain ⟨rfl, hf⟩ := h
    exact (hf.substNonempty f hm).toValue
  | .place p o, h, hm => Place.HasKind.substRead p o h hm
  | .tuple vs _, h, hm => by
    obtain ⟨ss, rfl, hvs⟩ := h
    exact ⟨ss, rfl, hvs.substNonempty vs hm⟩
  | .array vs _, h, hm => by
    obtain ⟨s, rfl, hne, hvs⟩ := h
    have hall := hvs.substNonempty vs hm
    have hlen : (Value.substAll m vs).length = vs.length := by simpa using hall.length_eq
    refine ⟨s, rfl, ?_, by rwa [hlen]⟩
    simpa [← List.length_pos_iff, hlen] using hne
  | .call f vs _, h, hm => by
    obtain ⟨g, ks, hg, hks, hvs⟩ := h
    exact ⟨g, ks, hm.functions f g hg, hks, hvs.substNonempty vs hm⟩
  | .ref v _ _, h, hm | .deref v _, h, hm => Value.HasKind.substNonempty v h hm
  | .unit _, h, hm => h
  | .ite c v w _, h, hm =>
    Value.hasKind_ternary (h.1.substNonempty c hm.left.left) (h.2.1.substNonempty v hm.left.right)
      (h.2.2.substNonempty w hm.right)
  | .select .array b i _, h, hm => by
    obtain ⟨s, rfl, hb, hi⟩ := h
    have hb' := hb.substNonempty b hm.left
    exact Value.finds_elementOf.hasKind_array (hi.substNonempty i hm.right) hb' hb'
  | .select .tuple b i _, h, hm => by
    obtain ⟨ss, n, s, rfl, hb, hn, hs⟩ := h
    have hb' := hb.substNonempty b hm.left
    exact Value.finds_elementOf.hasKind_tuple (Value.constantIndex?_subst m hn) hs hb' hb'
  | .store .array b i v _, h, hm => by
    obtain ⟨s, rfl, hb, hi, hv⟩ := h
    exact ⟨s, rfl, hb.substNonempty b hm.left.left, hi.substNonempty i hm.left.right,
      hv.substNonempty v hm.right⟩
  | .store .tuple b i v _, h, hm => by
    obtain ⟨ss, n, s, rfl, hb, hn, hs, hv⟩ := h
    exact ⟨ss, n, s, rfl, hb.substNonempty b hm.left.left, Value.constantIndex?_subst m hn, hs,
      hv.substNonempty v hm.right⟩
  | .missing, h, hm => h.elim

theorem Value.HaveKinds.substNonempty (vs : List Value) {Γ Δ m ks} (h : Value.HaveKinds Γ vs ks)
    (hm : m.KeepsKinds Γ Δ (Value.freeVarsAll vs)) : Value.HaveKinds Δ (Value.substAll m vs) ks :=
  match vs, h, hm with
  | [], h, hm => h
  | v :: vs, h, hm => by
    obtain ⟨k, ks, rfl, hv, hvs⟩ := h
    exact ⟨k, ks, rfl, hv.substNonempty v hm.left, hvs.substNonempty vs hm.right⟩

theorem Expr.HasSort.substNonempty (a : Expr) {Γ Δ m s} (h : a.HasSort Γ s)
    (hm : m.KeepsKinds Γ Δ a.freeVars) : (a.substNonempty m).HasSort Δ s :=
  match a, h, hm with
  | .num _, h, _ => h
  | .value v, h, hm => (Value.HasKind.substNonempty v h hm).toExpr
  | .op _ a b, h, hm => ⟨h.1, h.2.1.substNonempty a hm.left, h.2.2.substNonempty b hm.right⟩

theorem Formula.IsSorted.substNonempty (f : Formula) {Γ Δ m} (h : f.IsSorted Γ)
    (hm : m.KeepsKinds Γ Δ f.freeVars) : (f.substNonempty m).IsSorted Δ :=
  match f, h, hm with
  | .lit _, h, hm => h
  | .and f g, h, hm | .or f g, h, hm => ⟨h.1.substNonempty f hm.left, h.2.substNonempty g hm.right⟩
  | .not f, h, hm => Formula.IsSorted.substNonempty f h hm
  | .value v, h, hm => (Value.HasKind.substNonempty v h hm).toFormula
  | .equal a b, h, hm => by
    obtain ⟨s, ha, hb⟩ := h
    exact ⟨s, ha.substNonempty a hm.left, hb.substNonempty b hm.right⟩
  | .compare _ a b, h, hm => by
    obtain ⟨s, hs, ha, hb⟩ := h
    exact ⟨s, hs, ha.substNonempty a hm.left, hb.substNonempty b hm.right⟩
  | .quant q x t f, h, hm => by
    obtain ⟨hx, ht, hf⟩ := h
    simp only [Formula.substNonempty]
    split_ifs with hempty
    · -- No free variable of the formula is replaced.
      refine ⟨hx, ht, hf.extend f ((hm.agreesOn fun z hz => ?_).declare t)⟩
      obtain ⟨hzf, hzx⟩ := (SortedSet.mem_erase _ _ _).mp hz
      exact Substitution.image_of_below_isEmpty hempty hzf hzx
    · exact ⟨m.isPlain_enter f.freeVars hx, ht, hf.substNonempty f hm.enter⟩

end

section

variable {m : Substitution}

theorem Substitution.KeepsKinds.of_isEmpty {xs : Names} (h : m.KeepsKinds Γ Δ xs)
    (hm : m.isEmpty = true) : Γ.AgreesOn Δ xs :=
  h.agreesOn fun x _ => Substitution.image_of_isEmpty hm x

theorem Value.HasKind.subst {k : Kind} (h : v.HasKind Γ k) (hm : m.KeepsKinds Γ Δ v.freeVars) :
    (v.subst m).HasKind Δ k := by
  unfold Value.subst
  split_ifs with hempty
  · exact h.extend v (hm.of_isEmpty hempty)
  · exact h.substNonempty v hm

theorem Expr.HasSort.subst {a : Expr} {s : SmtSort} (h : a.HasSort Γ s)
    (hm : m.KeepsKinds Γ Δ a.freeVars) : (a.subst m).HasSort Δ s := by
  unfold Expr.subst
  split_ifs with hempty
  · exact h.extend a (hm.of_isEmpty hempty)
  · exact h.substNonempty a hm

theorem Formula.IsSorted.subst (h : f.IsSorted Γ) (hm : m.KeepsKinds Γ Δ f.freeVars) :
    (f.subst m).IsSorted Δ := by
  unfold Formula.subst
  split_ifs with hempty
  · exact h.extend f (hm.of_isEmpty hempty)
  · exact h.substNonempty f hm

end

/-! ### Types -/

mutual

/-- A well-sorted value has a type of its kind. -/
theorem Value.HasKind.typeOf (v : Value) {Γ k} (h : v.HasKind Γ k) :
    ∃ t, v.typeOf Γ = .ok t ∧ t.IsKind k :=
  match v, h with
  | .expr a _, h => ⟨.i32, rfl, h.1 ▸ rfl⟩
  | .formula f _, h => ⟨.bool, rfl, h.1 ▸ rfl⟩
  | .place (.name x _) _, h => by
    obtain ⟨t, ht, hk⟩ := h
    exact ⟨t, by simp only [Value.typeOf, Place.typeOf, ht], hk⟩
  | .place (.wildcard _) _, h => h.elim
  | .place (.elem .array x i _) _, h => by
    obtain ⟨s, rfl, ⟨t, ht, hk⟩, -⟩ := h
    obtain ⟨e, n, harray, he⟩ := Ty.underlying_of_sortOf_array hk
    exact ⟨e, by simp only [Value.typeOf, Place.typeOf, ht, Ty.elementType, harray, Except.mapError], he⟩
  | .place (.elem .tuple x i _) _, h => by
    obtain ⟨ss, n, s, rfl, ⟨t, ht, ts, hts, hss⟩, hn, hs⟩ := h
    obtain ⟨u, hu, hsort⟩ := Ty.getElem?_of_haveSorts hss hs
    refine ⟨u, ?_, hsort⟩
    simp only [Value.typeOf, Place.typeOf, ht, Ty.elementType, hts, hn, hu, Except.mapError]
  | .tuple vs _, h => by
    obtain ⟨ss, rfl, hvs⟩ := h
    obtain ⟨ts, hts, hss⟩ := Value.HaveKinds.typesOf vs hvs
    rw [List.forall₂_map_right_iff] at hss
    exact ⟨.tuple ts, by simp only [Value.typeOf, hts, Except.map], ts, rfl, hss⟩
  | .array [] _, h => by
    obtain ⟨s, rfl, hne, -⟩ := h
    exact absurd rfl hne
  | .array (v :: vs) _, h => by
    obtain ⟨s, rfl, -, k, ks, hks, hv, -⟩ := h
    obtain ⟨t, ht, hk⟩ := hv.typeOf v
    obtain ⟨rfl, -⟩ := List.cons.inj hks
    exact ⟨.array t (vs.length + 1), by simp only [Value.typeOf, ht, Except.map],
      Ty.sortOf_array.mpr ⟨s, rfl, hk⟩⟩
  | .call f vs _, h => by
    obtain ⟨g, ks, hg, hks, -⟩ := h
    exact ⟨g.output, by simp only [Value.typeOf, hg], hks.output⟩
  | .ref v m _, h => by
    obtain ⟨t, ht, hk⟩ := Value.HasKind.typeOf v h
    exact ⟨.ref t m, by simp only [Value.typeOf, ht, Except.map], Ty.isKind_ref.mpr hk⟩
  | .deref v _, h => by
    obtain ⟨t, ht, hk⟩ := Value.HasKind.typeOf v h
    exact ⟨t.deref, by simp only [Value.typeOf, ht, Except.map], hk.deref⟩
  | .unit _, h => ⟨.unit, rfl, h ▸ rfl⟩
  | .ite c v w _, h => Value.HasKind.typeOf v h.2.1
  | .select .array b i _, h => by
    obtain ⟨s, rfl, hb, -⟩ := h
    obtain ⟨t, ht, hk⟩ := hb.typeOf b
    obtain ⟨e, n, harray, he⟩ := Ty.underlying_of_sortOf_array hk
    refine ⟨e, ?_, he⟩
    simp only [Value.typeOf, ht, bind, Except.bind, Ty.elementType, harray, Except.mapError]
  | .select .tuple b i _, h => by
    obtain ⟨ss, n, s, rfl, hb, hn, hs⟩ := h
    obtain ⟨t, ht, ts, hts, hss⟩ := hb.typeOf b
    obtain ⟨u, hu, hsort⟩ := Ty.getElem?_of_haveSorts hss hs
    refine ⟨u, ?_, hsort⟩
    simp only [Value.typeOf, ht, bind, Except.bind, Ty.elementType, hts, hn, hu, Except.mapError]
  | .store .array b i v _, h => by
    obtain ⟨s, rfl, hb, -⟩ := h
    exact hb.typeOf b
  | .store .tuple b i v _, h => by
    obtain ⟨ss, n, s, rfl, hb, -⟩ := h
    exact hb.typeOf b
  | .missing, h => h.elim

theorem Value.HaveKinds.typesOf (vs : List Value) {Γ ks} (h : Value.HaveKinds Γ vs ks) :
    ∃ ts, Value.typesOf Γ vs = .ok ts ∧ List.Forall₂ Ty.IsKind ts ks :=
  match vs, h with
  | [], h => ⟨[], rfl, by rw [show ks = [] from h]; exact .nil⟩
  | v :: vs, h => by
    obtain ⟨k, ks, rfl, hv, hvs⟩ := h
    obtain ⟨t, ht, hk⟩ := hv.typeOf v
    obtain ⟨ts, hts, hks⟩ := Value.HaveKinds.typesOf vs hvs
    refine ⟨t :: ts, ?_, .cons hk hks⟩
    simp only [Value.typesOf, ht, hts]
    rfl

end

/-! ### Numbering -/

mutual

/-- A value keeps its kind when it is numbered. -/
theorem Value.HasKind.number (v : Value) (n : ℕ) {Γ k} (h : v.HasKind Γ k) :
    (v.number.run n).1.HasKind Γ k := by
  cases v with
  | unit | missing => exact h
  | expr _ o | formula _ o | place _ o | call _ _ o | ite _ _ _ o => cases o <;> exact h
  | select s _ _ o => cases s <;> cases o <;> exact h
  | tuple vs o =>
    cases o with
    | some => exact h
    | none =>
      obtain ⟨ss, rfl, hvs⟩ := h
      exact ⟨ss, rfl, hvs.numberAll vs n⟩
  | array vs o =>
    cases o with
    | some => exact h
    | none =>
      obtain ⟨s, rfl, hne, hvs⟩ := h
      have hall := hvs.numberAll vs n
      have hlen : ((numberAll vs).run n).1.length = vs.length := by simpa using hall.length_eq
      refine ⟨s, rfl, List.ne_nil_of_length_pos ?_, hlen ▸ hall⟩
      exact hlen.symm ▸ List.length_pos_of_ne_nil hne
  | ref v _ o | deref v o =>
    cases o with
    | some => exact h
    | none => exact Value.HasKind.number v n h
  | store s b i v o =>
    cases o with
    | some => exact h
    | none =>
      cases s with
      | array =>
        obtain ⟨s, rfl, hb, hi, hv⟩ := h
        exact ⟨s, rfl, hb.number b n, hi, hv.number v _⟩
      | tuple =>
        obtain ⟨ss, i', s, rfl, hb, hi, hs, hv⟩ := h
        exact ⟨ss, i', s, rfl, hb.number b n, hi, hs, hv.number v _⟩

theorem Value.HaveKinds.numberAll (vs : List Value) (n : ℕ) {Γ ks} (h : Value.HaveKinds Γ vs ks) :
    Value.HaveKinds Γ ((Value.numberAll vs).run n).1 ks :=
  match vs, h with
  | [], h => h
  | v :: vs, h => by
    obtain ⟨k, ks, rfl, hv, hvs⟩ := h
    exact ⟨k, ks, rfl, hv.number v n, hvs.numberAll vs _⟩

end

end Verdict
