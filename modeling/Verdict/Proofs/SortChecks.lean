import Verdict.Proofs.Disciplines
import Verdict.Proofs.WellSorted

/-! # What encoding checks of sorts

A node that can be encoded is well-sorted, up to what its encoding takes on trust: that calls pass what
functions take, that the two sides of a choice between tuples are alike and that bound variables have
plain names (`Value.Conforms`). -/

namespace Verdict

open Encoding

/-! ### What encoding takes on trust -/

mutual

/-- Whether what is taken on trust about the index of a place holds. -/
def Place.Conforms (Γ : Scope) : Place → Prop
  | .name _ _ | .wildcard _ => True
  | .elem _ _ i _ => i.Conforms Γ

/-- Whether what is taken on trust in encoding a value holds: that calls pass what functions take, that
the elements of a tuple that a function returns have sorts, that the two sides of a choice between tuples
are alike. Elements of values and changed values are not part of programs. -/
def Value.Conforms (Γ : Scope) : Value → Prop
  | .expr a _ => a.Conforms Γ
  | .formula f _ => f.Conforms Γ
  | .place p _ => p.Conforms Γ
  | .tuple vs _ | .array vs _ => Value.AllConform Γ vs
  | .call f vs _ => Value.AllConform Γ vs ∧ ∀ g, Γ.function? f = some g →
    (∀ ks, Value.HaveKinds Γ vs ks → List.Forall₂ Ty.IsKind (g.inputs.map Declaration.type) ks) ∧
      ∀ ts, g.output.underlying = .tuple ts → ∃ k, g.output.IsKind k
  | .ref v _ _ | .deref v _ => v.Conforms Γ
  | .unit _ | .missing => True
  | .ite c v w _ => c.Conforms Γ ∧ v.Conforms Γ ∧ w.Conforms Γ ∧
    ∀ ss ss', v.HasKind Γ (.tuple ss) → w.HasKind Γ (.tuple ss') → ss = ss'
  | .select _ _ _ _ | .store _ _ _ _ _ => False

/-- Whether what is taken on trust in encoding several values holds. -/
def Value.AllConform (Γ : Scope) : List Value → Prop
  | [] => True
  | v :: vs => v.Conforms Γ ∧ Value.AllConform Γ vs

def Expr.Conforms (Γ : Scope) : Expr → Prop
  | .num _ => True
  | .value v => v.Conforms Γ
  | .op _ a b => a.Conforms Γ ∧ b.Conforms Γ

/-- Whether what is taken on trust in encoding a formula holds: also that bound variables have plain
names. -/
def Formula.Conforms (Γ : Scope) : Formula → Prop
  | .lit _ => True
  | .and f g | .or f g => f.Conforms Γ ∧ g.Conforms Γ
  | .not f => f.Conforms Γ
  | .value v => v.Conforms Γ
  | .equal a b | .compare _ a b => a.Conforms Γ ∧ b.Conforms Γ
  | .quant _ x t f => IsPlain x ∧ f.Conforms (Γ.declare x t)

end

variable {Γ Δ : Scope}

/-! ### Scopes that are the same -/

/-- Whether two scopes give some variables the same types, and have the same functions. -/
structure Scope.SameOn (Γ Δ : Scope) (xs : Names) : Prop where
  types : ∀ x ∈ xs.members, Γ.type? x = Δ.type? x
  functions : ∀ f, Γ.function? f = Δ.function? f

namespace Scope.SameOn

theorem left {xs ys : Names} (h : Γ.SameOn Δ (xs.union ys)) : Γ.SameOn Δ xs :=
  ⟨fun x hx => h.types x (by simp [hx]), h.functions⟩

theorem right {xs ys : Names} (h : Γ.SameOn Δ (xs.union ys)) : Γ.SameOn Δ ys :=
  ⟨fun x hx => h.types x (by simp [hx]), h.functions⟩

theorem declare {xs : Names} {x : String} (h : Γ.SameOn Δ (xs.erase x)) (t : Ty) :
    (Γ.declare x t).SameOn (Δ.declare x t) xs := by
  refine ⟨fun y hy => ?_, h.functions⟩
  simp only [type?_declare]
  split_ifs with hxy
  · rfl
  · exact h.types y (by simp [hy, Ne.symm hxy])

end Scope.SameOn

theorem Place.typeOf_congr {p : Place} (h : Γ.SameOn Δ p.freeVars) : p.typeOf Γ = p.typeOf Δ := by
  cases p with
  | name x o => simp only [Place.typeOf, h.types x (by simp [Place.freeVars])]
  | wildcard o => rfl
  | elem shape x i o => simp only [Place.typeOf, h.types x (by simp [Place.freeVars])]

mutual

/-- The type of a value depends only on the types of its free variables. -/
theorem Value.typeOf_congr : ∀ (v : Value), Γ.SameOn Δ v.freeVars → v.typeOf Γ = v.typeOf Δ
  | .expr _ _, _ | .formula _ _, _ | .unit _, _ | .missing, _ | .array [] _, _ => rfl
  | .place p _, h => Place.typeOf_congr h
  | .tuple vs _, h => by simp only [Value.typeOf, Value.typesOf_congr vs h]
  | .array (v :: vs) _, h => by simp only [Value.typeOf, Value.typeOf_congr v h.left]
  | .call f vs _, h => by simp only [Value.typeOf, h.functions f]
  | .ref v _ _, h | .deref v _, h => by simp only [Value.typeOf, Value.typeOf_congr v h]
  | .ite c v w _, h => by simp only [Value.typeOf, Value.typeOf_congr v h.left.right]
  | .select _ b i _, h => by simp only [Value.typeOf, Value.typeOf_congr b h.left]
  | .store _ b i v _, h => by simp only [Value.typeOf, Value.typeOf_congr b h.left.left]

theorem Value.typesOf_congr : ∀ (vs : List Value), Γ.SameOn Δ (Value.freeVarsAll vs) →
    Value.typesOf Γ vs = Value.typesOf Δ vs
  | [], _ => rfl
  | v :: vs, h => by
    simp only [Value.typesOf, Value.typeOf_congr v h.left, Value.typesOf_congr vs h.right]

end

theorem Value.HasKind.unique {v : Value} {k k' : Kind} (h : v.HasKind Γ k) (h' : v.HasKind Γ k') :
    k = k' := by
  obtain ⟨t, ht, hk⟩ := h.typeOf v
  obtain ⟨t', ht', hk'⟩ := h'.typeOf v
  obtain rfl := ok_unique ht ht'
  exact hk.unique hk'

/-! ### What is encoded is well-sorted -/

namespace Encoding

theorem Ran.sorts_namedTuple {env : Env} {x : String} : ∀ {ts : List Ty} {parts parts' : NameMap Term}
    {d d' : Declarations}, Ran (Encoding.namedTuple env x parts ts) d parts' d' → ∃ ss, Ty.HaveSorts ts ss
  | [], _, _, _, _, _ => ⟨[], .nil⟩
  | t :: ts, parts, parts', d, d', h => by
    simp only [Encoding.namedTuple, ran_bind, ran_orFail] at h
    obtain ⟨s, _, ⟨hs, -⟩, _, _, -, h⟩ := h
    obtain ⟨ss, hss⟩ := h.sorts_namedTuple
    exact ⟨s :: ss, .cons hs hss⟩

theorem getElem?_of_forall₂ {ts : List Ty} {ss : List SmtSort} (h : Ty.HaveSorts ts ss) {n : ℕ} {u : Ty}
    {s : SmtSort} (hu : ts[n]? = some u) (hs : u.sortOf = .ok s) : ss[n]? = some s := by
  induction h generalizing n with
  | nil => simp at hu
  | cons hs' _ ih =>
    cases n with
    | zero =>
      obtain rfl := Option.some.inj hu
      exact congrArg some (ok_unique hs' hs)
    | succ n => exact ih hu

mutual

theorem sorts_place {Δ : Scope} {p env d d' r} (h : RunPlace env p d r d') (hp : p.Conforms Δ)
    (hΔ : env.scope.SameOn Δ p.freeVars) : p.HasKind Δ (.scalar r.sort) := by
  cases h with
  | name ht hs => exact ⟨_, (hΔ.types _ (by simp [Place.freeVars])).symm.trans ht, hs⟩
  | @array _ x _ _ t _ _ s _ _ _ _ ht he hs _ hi hint =>
    have hkind := sorts_value hi hp hΔ.right
    rw [hint] at hkind
    have htype := Ty.sortOf_of_underlying_array he hs
    exact ⟨s, rfl, ⟨t, (hΔ.types x (by simp [Place.freeVars])).symm.trans ht, htype⟩, hkind⟩
  | @tuple _ x _ _ t ts _ n _ s _ _ ht hts hparts hn hu hs =>
    obtain ⟨ss, hss⟩ := hparts.sorts_namedTuple
    have hx := (hΔ.types x (by simp [Place.freeVars])).symm.trans ht
    exact ⟨ss, n, s, rfl, ⟨t, hx, ts, hts, hss⟩, hn, getElem?_of_forall₂ hss hu hs⟩

/-- A value that can be encoded as a term is well-sorted. -/
theorem sorts_value {Δ : Scope} {v env d d' r} (h : RunValue env v d r d') (hv : v.Conforms Δ)
    (hΔ : env.scope.SameOn Δ v.freeVars) : v.HasKind Δ (.scalar r.sort) := by
  cases h with
  | expr ha hint => exact ⟨congrArg Kind.scalar hint, hint ▸ sorts_expr ha hv hΔ⟩
  | formula hf => exact ⟨congrArg Kind.scalar (sort_formula hf), sorts_formula hf hv hΔ⟩
  | place hp => exact sorts_place hp hv hΔ
  | @array _ v vs _ r' _ _ _ _ hfirst hrest =>
    have hkinds := sorts_elements hrest hv.2 hΔ.right
    exact ⟨r'.sort, congrArg Kind.scalar (sort_elements hrest), List.cons_ne_nil v vs, _, _, rfl,
      sorts_value hfirst hv.1 hΔ.left, hkinds⟩
  | @call _ f _ _ g s _ _ _ _ hg hs has =>
    obtain ⟨ks, hks, hunits⟩ := sorts_args has hv.1 hΔ
    have hΔg := (hΔ.functions f).symm.trans hg
    exact ⟨g, ks, hΔg, ⟨(hv.2 g hΔg).1 ks hks, hs, .inr hunits⟩, hks⟩
  | ref hr | deref hr => exact (sorts_value hr hv hΔ :)
  | ite hc hfirst hsecond hsort =>
    have hthen := sorts_value hfirst hv.2.1 hΔ.left.right
    exact ⟨sorts_formula hc hv.1 hΔ.left.left, hthen, hsort ▸ sorts_value hsecond hv.2.2.1 hΔ.right⟩
  | element | select | store => exact hv.elim

theorem sorts_elements {Δ : Scope} {vs env array r s i d d'}
    (h : RunElements env array s i vs d r d') (hvs : Value.AllConform Δ vs)
    (hΔ : env.scope.SameOn Δ (Value.freeVarsAll vs)) :
    Value.HaveKinds Δ vs (List.replicate vs.length (.scalar s)) := by
  cases h with
  | nil => rfl
  | cons hv hsort hrest =>
    have hfirst := sorts_value hv hvs.1 hΔ.left
    exact ⟨.scalar s, _, rfl, hsort ▸ hfirst, sorts_elements hrest hvs.2 hΔ.right⟩

/-- Arguments that can be encoded are well-sorted, and none is of the unit type. -/
theorem sorts_args {Δ : Scope} {vs env d d' r} (h : RunArgs env vs d r d')
    (hvs : Value.AllConform Δ vs) (hΔ : env.scope.SameOn Δ (Value.freeVarsAll vs)) :
    ∃ ks, Value.HaveKinds Δ vs ks ∧ .unit ∉ ks := by
  cases h with
  | nil => exact ⟨[], rfl, List.not_mem_nil⟩
  | tuple _ _ hv hrest =>
    obtain ⟨ss, hss⟩ := sorts_tuple hv hvs.1 hΔ.left
    obtain ⟨ks, hks, hunits⟩ := sorts_args hrest hvs.2 hΔ.right
    exact ⟨.tuple ss :: ks, ⟨_, _, rfl, hss, hks⟩, by simpa using hunits⟩
  | value _ _ hv hrest =>
    have hfirst := sorts_value hv hvs.1 hΔ.left
    obtain ⟨ks, hks, hunits⟩ := sorts_args hrest hvs.2 hΔ.right
    exact ⟨_ :: ks, ⟨_, _, rfl, hfirst, hks⟩, by simpa using hunits⟩

/-- A value that can be encoded as the parts of a tuple is well-sorted. -/
theorem sorts_tuple {Δ : Scope} {v env d d' r} (h : RunTuple env v d r d') (hv : v.Conforms Δ)
    (hΔ : env.scope.SameOn Δ v.freeVars) : ∃ ss, v.HasKind Δ (.tuple ss) := by
  cases h with
  | @name _ x _ _ u ts _ _ _ hu hts hparts =>
    obtain ⟨ss, hss⟩ := hparts.sorts_namedTuple
    have hx := (hΔ.types x (by simp [Value.freeVars, Place.freeVars])).symm.trans hu
    exact ⟨ss, u, hx, ts, hts, hss⟩
  | literal _ _ hvs =>
    obtain ⟨ss, hss⟩ := sorts_literal hvs hv hΔ
    exact ⟨ss, ss, rfl, hss⟩
  | ref _ _ hr | deref _ _ hr => exact (sorts_tuple hr hv hΔ :)
  | ite _ _ hc hfirst hsecond =>
    obtain ⟨ss, hss⟩ := sorts_tuple hfirst hv.2.1 hΔ.left.right
    obtain ⟨ss', hss'⟩ := sorts_tuple hsecond hv.2.2.1 hΔ.right
    obtain rfl := hv.2.2.2 ss ss' hss hss'
    exact ⟨ss, sorts_formula hc hv.1 hΔ.left.left, hss, hss'⟩
  | @call _ f _ _ g ts _ _ _ _ _ hg hts has =>
    obtain ⟨ks, hks, hunits⟩ := sorts_args has hv.1 hΔ
    have hΔg := (hΔ.functions f).symm.trans hg
    obtain ⟨hinputs, houtput⟩ := hv.2 g hΔg
    obtain ⟨k, hk⟩ := houtput ts hts
    cases k with
    | unit => cases Eq.trans (Eq.symm hk) hts
    | scalar s => exact absurd hk (Ty.sortOf_of_underlying_tuple hts s)
    | tuple ss => exact ⟨ss, g, ks, hΔg, ⟨hinputs ks hks, hk, .inr hunits⟩, hks⟩
  | store => exact hv.elim

theorem sorts_literal {Δ : Scope} {vs env cs parts i d d' r}
    (h : RunLiteral env cs parts i vs d r d') (hvs : Value.AllConform Δ vs)
    (hΔ : env.scope.SameOn Δ (Value.freeVarsAll vs)) :
    ∃ ss : List SmtSort, Value.HaveKinds Δ vs (ss.map .scalar) := by
  cases h with
  | nil => exact ⟨[], rfl⟩
  | cons hv hrest =>
    obtain ⟨ss, hss⟩ := sorts_literal hrest hvs.2 hΔ.right
    exact ⟨_ :: ss, _, _, rfl, sorts_value hv hvs.1 hΔ.left, hss⟩

theorem sorts_expr {Δ : Scope} {a env d d' r} (h : RunExpr env a d r d') (ha : a.Conforms Δ)
    (hΔ : env.scope.SameOn Δ a.freeVars) : a.HasSort Δ r.sort := by
  cases h with
  | num => rfl
  | value hv => exact sorts_value hv ha hΔ
  | op hleft hint hright hint' =>
    exact ⟨rfl, hint ▸ sorts_expr hleft ha.1 hΔ.left, hint' ▸ sorts_expr hright ha.2 hΔ.right⟩

/-- A formula that can be encoded is well-sorted. -/
theorem sorts_formula {Δ : Scope} {f env d d' r} (h : RunFormula env f d r d') (hf : f.Conforms Δ)
    (hΔ : env.scope.SameOn Δ f.freeVars) : f.IsSorted Δ := by
  cases h with
  | lit => trivial
  | and hleft hright | or hleft hright =>
    exact ⟨sorts_formula hleft hf.1 hΔ.left, sorts_formula hright hf.2 hΔ.right⟩
  | not hr => exact (sorts_formula hr hf hΔ :)
  | value hv hsort =>
    have hkind := sorts_value hv hf hΔ
    rwa [hsort] at hkind
  | equal ha hb hsort =>
    exact ⟨_, sorts_expr ha hf.1 hΔ.left, hsort ▸ sorts_expr hb hf.2 hΔ.right⟩
  | @compare _ _ _ _ ra _ _ _ _ _ ha hb hsort ht =>
    refine ⟨ra.sort, ?_, sorts_expr ha hf.1 hΔ.left, hsort ▸ sorts_expr hb hf.2 hΔ.right⟩
    -- Arrays have no order.
    cases hs : ra.sort with
    | int => exact .inl rfl
    | bool => exact .inr rfl
    | array s =>
      rw [hs] at ht
      cases ht
  | quant hs hbody => exact ⟨hf.1, ⟨_, hs⟩, sorts_formula hbody hf.2 (hΔ.declare _)⟩

end

end Encoding

end Verdict
