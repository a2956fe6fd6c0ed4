import Verdict.Proofs.Locality

/-! # Well-typed values and formulas

A node is well-typed in a scope if all its parts have the types that are asked of them. Types are bare:
references are transparent. Only truth values and integers have an order, and a literal array has an
element. Which arrays may be read, and what else may be equated, are parameters.

A well-typed node denotes a value of its type, nothing is missing in it, and its static type is the type
it is well-typed with. -/

namespace Verdict

/-- What well-typed nodes may do with arrays and tuples. -/
structure Bounds where
  /-- The lengths of arrays whose elements may be accessed. -/
  lengths : ℕ → Prop
  /-- The numbers of elements that literals may have. -/
  literals : ℕ → Prop
  /-- The types, besides those of truth values and integers, whose values may be equated. -/
  equates : Ty → Prop

mutual

/-- Whether a place can be read, and has a type. -/
def Place.Typed (fits : Bounds) (Γ : Scope) : Place → Ty → Prop
  | .name x _, t => ∃ u, Γ.type? x = some u ∧ u.bare = t
  | .wildcard _, _ => False
  | .elem .array x i _, t =>
    ∃ u n, Γ.type? x = some u ∧ u.bare = .array t n ∧ fits.lengths n ∧ i.Typed fits Γ .i32
  | .elem .tuple x i _, t =>
    ∃ u ts n, Γ.type? x = some u ∧ u.bare = .tuple ts ∧ i.constantIndex? = some n ∧ ts[n]? = some t

/-- Whether a value is well-typed, with a type. -/
def Value.Typed (fits : Bounds) (Γ : Scope) : Value → Ty → Prop
  | .expr e _, t => t = .i32 ∧ e.Typed fits Γ .i32
  | .formula f _, t => t = .bool ∧ f.Typed fits Γ
  | .place p _, t => p.Typed fits Γ t
  | .tuple vs _, t => ∃ ts, t = .tuple ts ∧ fits.literals vs.length ∧ Value.AllTyped fits Γ vs ts
  | .array vs _, t =>
    ∃ u, t = .array u vs.length ∧ (vs ≠ [] ∧ fits.literals vs.length) ∧
      Value.AllTyped fits Γ vs (List.replicate vs.length u)
  | .call f vs _, t =>
    ∃ g, Γ.function? f = some g ∧ g.output.bare = t ∧
      Value.AllTyped fits Γ vs (Ty.bareAll (g.inputs.map Declaration.type))
  | .ref v _ _, t => v.Typed fits Γ t
  | .deref v _, t => v.Typed fits Γ t
  | .unit _, t => t = .unit
  | .ite c v w _, t => c.Typed fits Γ ∧ v.Typed fits Γ t ∧ w.Typed fits Γ t
  | .select .array b i _, t =>
    ∃ n, b.Typed fits Γ (.array t n) ∧ fits.lengths n ∧ i.Typed fits Γ .i32
  | .select .tuple b i _, t =>
    ∃ ts n, b.Typed fits Γ (.tuple ts) ∧ i.constantIndex? = some n ∧ ts[n]? = some t
  | .store .array b i e _, t =>
    ∃ u n, t = .array u n ∧ b.Typed fits Γ t ∧ i.Typed fits Γ .i32 ∧ e.Typed fits Γ u
  | .store .tuple b i e _, t =>
    ∃ ts n u, t = .tuple ts ∧ b.Typed fits Γ t ∧ i.constantIndex? = some n ∧ ts[n]? = some u ∧
      e.Typed fits Γ u
  | .missing, _ => False

def Value.AllTyped (fits : Bounds) (Γ : Scope) : List Value → List Ty → Prop
  | [], ts => ts = []
  | v :: vs, ts => ∃ u us, ts = u :: us ∧ v.Typed fits Γ u ∧ Value.AllTyped fits Γ vs us

def Expr.Typed (fits : Bounds) (Γ : Scope) : Expr → Ty → Prop
  | .num _, t => t = .i32
  | .value v, t => v.Typed fits Γ t
  | .op _ a b, t => t = .i32 ∧ a.Typed fits Γ .i32 ∧ b.Typed fits Γ .i32

def Formula.Typed (fits : Bounds) (Γ : Scope) : Formula → Prop
  | .lit _ => True
  | .and f g => f.Typed fits Γ ∧ g.Typed fits Γ
  | .or f g => f.Typed fits Γ ∧ g.Typed fits Γ
  | .not f => f.Typed fits Γ
  | .value v => v.Typed fits Γ .bool
  | .equal a b => ∃ t, (t = .bool ∨ t = .i32 ∨ fits.equates t) ∧ a.Typed fits Γ t ∧ b.Typed fits Γ t
  | .compare _ a b => ∃ t, (t = .bool ∨ t = .i32) ∧ a.Typed fits Γ t ∧ b.Typed fits Γ t
  | .quant _ x t f => f.Typed fits (Γ.declare x t)

end

variable {fits : Bounds} {Γ Γ' : Scope} {I : Interp} {ρ : Valuation} {ts : List Ty}
  {functions : List Function}

@[simp] theorem Scope.type?_declare (Γ : Scope) (x y : String) (t : Ty) :
    (Γ.declare x t).type? y = if x = y then some t else Γ.type? y := by
  simp [Scope.declare, Scope.type?]

/-! ### Other scopes -/

/-- Whether a second scope knows some variables of a first one, with the same bare types, and all its
functions. -/
structure Scope.ExtendsOn (Γ Γ' : Scope) (xs : Names) : Prop where
  vars : ∀ x ∈ xs.members, ∀ t, Γ.type? x = some t → ∃ u, Γ'.type? x = some u ∧ u.bare = t.bare
  functions : ∀ f g, Γ.function? f = some g → Γ'.function? f = some g

namespace Scope.ExtendsOn

variable {xs : Names}

theorem left {ys : Names} (h : Γ.ExtendsOn Γ' (xs.union ys)) : Γ.ExtendsOn Γ' xs :=
  ⟨fun x hx => h.vars x (by simp [hx]), h.functions⟩

theorem right {ys : Names} (h : Γ.ExtendsOn Γ' (xs.union ys)) : Γ.ExtendsOn Γ' ys :=
  ⟨fun x hx => h.vars x (by simp [hx]), h.functions⟩

theorem declare {x : String} (h : Γ.ExtendsOn Γ' (xs.erase x)) (t : Ty) :
    (Γ.declare x t).ExtendsOn (Γ'.declare x t) xs := by
  refine ⟨fun y hy u hu => ?_, h.functions⟩
  rw [type?_declare] at hu ⊢
  split_ifs at hu ⊢ with hxy
  · exact ⟨u, hu, rfl⟩
  · exact h.vars y (by simp [hy, Ne.symm hxy]) u hu

end Scope.ExtendsOn

mutual

theorem Place.Typed.extend (p : Place) {Γ Γ' t} (h : p.Typed fits Γ t)
    (hΓ : Γ.ExtendsOn Γ' p.freeVars) : p.Typed fits Γ' t :=
  match p, h, hΓ with
  | .name x _, h, hΓ => by
    obtain ⟨u, hu, hb⟩ := h
    obtain ⟨u', hu', hb'⟩ := hΓ.vars x (by simp [Place.freeVars]) u hu
    exact ⟨u', hu', hb'.trans hb⟩
  | .wildcard _, h, _ => h
  | .elem .array x i _, h, hΓ => by
    obtain ⟨u, n, hu, hb, hn, hi⟩ := h
    obtain ⟨u', hu', hb'⟩ := hΓ.vars x (by simp [Place.freeVars]) u hu
    exact ⟨u', n, hu', hb'.trans hb, hn, hi.extend i hΓ.right⟩
  | .elem .tuple x i _, h, hΓ => by
    obtain ⟨u, ts, n, hu, hb, hn⟩ := h
    obtain ⟨u', hu', hb'⟩ := hΓ.vars x (by simp [Place.freeVars]) u hu
    exact ⟨u', ts, n, hu', hb'.trans hb, hn⟩

theorem Value.Typed.extend (v : Value) {Γ Γ' t} (h : v.Typed fits Γ t)
    (hΓ : Γ.ExtendsOn Γ' v.freeVars) : v.Typed fits Γ' t :=
  match v, h, hΓ with
  | .expr e _, h, hΓ => ⟨h.1, h.2.extend e hΓ⟩
  | .formula f _, h, hΓ => ⟨h.1, h.2.extend f hΓ⟩
  | .place p _, h, hΓ => by
    simp only [Value.Typed] at h ⊢
    exact h.extend p hΓ
  | .tuple vs _, h, hΓ => by
    obtain ⟨ts, rfl, hlen, hvs⟩ := h
    exact ⟨ts, rfl, hlen, hvs.extend vs hΓ⟩
  | .array vs _, h, hΓ => by
    obtain ⟨u, rfl, hne, hvs⟩ := h
    exact ⟨u, rfl, hne, hvs.extend vs hΓ⟩
  | .call f vs _, h, hΓ => by
    obtain ⟨g, hg, ht, hvs⟩ := h
    exact ⟨g, hΓ.functions f g hg, ht, hvs.extend vs hΓ⟩
  | .ref v _ _, h, hΓ | .deref v _, h, hΓ => h.extend v hΓ
  | .unit _, h, _ => h
  | .ite c v w _, h, hΓ => ⟨h.1.extend c hΓ.left.left, h.2.1.extend v hΓ.left.right, h.2.2.extend w hΓ.right⟩
  | .select .array b i _, h, hΓ => by
    obtain ⟨n, hb, hn, hi⟩ := h
    exact ⟨n, hb.extend b hΓ.left, hn, hi.extend i hΓ.right⟩
  | .select .tuple b i _, h, hΓ => by
    obtain ⟨ts, n, hb, hn⟩ := h
    exact ⟨ts, n, hb.extend b hΓ.left, hn⟩
  | .store .array b i e _, h, hΓ => by
    obtain ⟨u, n, rfl, hb, hi, he⟩ := h
    exact ⟨u, n, rfl, hb.extend b hΓ.left.left, hi.extend i hΓ.left.right, he.extend e hΓ.right⟩
  | .store .tuple b i e _, h, hΓ => by
    obtain ⟨ts, n, u, rfl, hb, hn, hu, he⟩ := h
    exact ⟨ts, n, u, rfl, hb.extend b hΓ.left.left, hn, hu, he.extend e hΓ.right⟩
  | .missing, h, _ => h

theorem Value.AllTyped.extend (vs : List Value) {Γ Γ' ts} (h : Value.AllTyped fits Γ vs ts)
    (hΓ : Γ.ExtendsOn Γ' (Value.freeVarsAll vs)) : Value.AllTyped fits Γ' vs ts :=
  match vs, h, hΓ with
  | [], h, _ => h
  | v :: vs, h, hΓ => by
    obtain ⟨u, us, rfl, hv, hvs⟩ := h
    exact ⟨u, us, rfl, hv.extend v hΓ.left, hvs.extend vs hΓ.right⟩

theorem Expr.Typed.extend (e : Expr) {Γ Γ' t} (h : e.Typed fits Γ t)
    (hΓ : Γ.ExtendsOn Γ' e.freeVars) : e.Typed fits Γ' t :=
  match e, h, hΓ with
  | .num _, h, _ => h
  | .value v, h, hΓ => by
    simp only [Expr.Typed] at h ⊢
    exact h.extend v hΓ
  | .op _ a b, h, hΓ => ⟨h.1, h.2.1.extend a hΓ.left, h.2.2.extend b hΓ.right⟩

theorem Formula.Typed.extend (f : Formula) {Γ Γ' : Scope} (h : f.Typed fits Γ)
    (hΓ : Γ.ExtendsOn Γ' f.freeVars) : f.Typed fits Γ' :=
  match f, h, hΓ with
  | .lit _, h, _ => h
  | .and f g, h, hΓ | .or f g, h, hΓ => ⟨h.1.extend f hΓ.left, h.2.extend g hΓ.right⟩
  | .not f, h, hΓ => h.extend f hΓ
  | .value v, h, hΓ => by
    simp only [Formula.Typed] at h ⊢
    exact h.extend v hΓ
  | .equal a b, h, hΓ | .compare _ a b, h, hΓ => by
    obtain ⟨t, ht, ha, hb⟩ := h
    exact ⟨t, ht, ha.extend a hΓ.left, hb.extend b hΓ.right⟩
  | .quant _ x t f, h, hΓ => h.extend f (hΓ.declare t)

end

/-! ### Constant indices -/

namespace Value

/-- A constant index is a literal behind references. -/
@[elab_as_elim] theorem constantIndex_induction {n : ℕ}
    {motive : (v : Value) → v.constantIndex? = some n → Prop}
    (literal : ∀ (k : Int32) (o : Origin) h, k.toInt = n → motive (.expr (.num k) o) h)
    (ref : ∀ (v : Value) (m : Bool) (o : Origin) h, motive v h → motive (.ref v m o) h)
    (deref : ∀ (v : Value) (o : Origin) h, motive v h → motive (.deref v o) h) :
    ∀ (v : Value) (h : v.constantIndex? = some n), motive v h
  | .expr (.num k) o, h => by
    refine literal k o h ?_
    simp only [constantIndex?, stripRefs] at h
    split_ifs at h with hk
    have hk' : 0 ≤ k.toInt := by simpa [Int32.le_iff_toInt_le] using hk
    simp only [Option.some.injEq] at h
    omega
  | .ref v m o, h => ref v m o h (constantIndex_induction literal ref deref v h)
  | .deref v o, h => deref v o h (constantIndex_induction literal ref deref v h)
  | .expr (.value _) _, h | .expr (.op _ _ _) _, h | .formula _ _, h | .place _ _, h
  | .tuple _ _, h | .array _ _, h | .call _ _ _, h | .unit _, h | .ite _ _ _ _, h
  | .select _ _ _ _, h | .store _ _ _ _ _, h | .missing, h => by
    simp [constantIndex?, stripRefs] at h

variable {v : Value} {n : ℕ}

theorem eval_of_constantIndex (h : v.constantIndex? = some n) : v.eval I ρ = .int n := by
  induction v, h using constantIndex_induction with
  | literal k o _ hk => simp only [eval, Expr.eval, hk]
  | ref _ _ _ _ ih | deref _ _ _ ih => simpa only [eval] using ih

theorem defined_of_constantIndex (h : v.constantIndex? = some n) : v.Defined I ρ := by
  induction v, h using constantIndex_induction with
  | literal => simp only [Defined, Expr.Defined]
  | ref _ _ _ _ ih | deref _ _ _ ih => simpa only [Defined] using ih

theorem in_of_constantIndex {K : String → Prop} (h : v.constantIndex? = some n) : v.freeVars.In K := by
  induction v, h using constantIndex_induction with
  | literal => simp [freeVars, Expr.freeVars]
  | ref _ _ _ _ ih | deref _ _ _ ih => simpa only [freeVars] using ih

theorem isWhole_of_constantIndex (h : v.constantIndex? = some n) : v.isWhole = true := by
  induction v, h using constantIndex_induction with
  | literal => simp only [isWhole, Expr.isWhole]
  | ref _ _ _ _ ih | deref _ _ _ ih => simpa only [isWhole] using ih

theorem typed_of_constantIndex (h : v.constantIndex? = some n) : v.Typed fits Γ .i32 := by
  induction v, h using constantIndex_induction with
  | literal => simp only [Typed, Expr.Typed, and_self]
  | ref _ _ _ _ ih | deref _ _ _ ih => simpa only [Typed] using ih

/-- The literal for a position is a constant index, if it is not too large for a word. -/
theorem constantIndex?_int (h : n < 2 ^ 31) : (Value.int (Int32.ofNat n)).constantIndex? = some n := by
  have hn : (Int32.ofNat n).toInt = n := Int32.toInt_ofNat_of_lt h
  have hle : (0 : Int32) ≤ Int32.ofNat n := by
    rw [Int32.le_iff_toInt_le, hn]
    simp
  simp [constantIndex?, Value.int, stripRefs, hle, hn]

end Value

/-! ### Variables and missing parts -/

/-- Whether a variable is declared. -/
def Scope.Declares (Γ : Scope) (x : String) : Prop := ∃ u, Γ.type? x = some u

mutual

theorem Place.Typed.known (p : Place) {Γ t} (h : p.Typed fits Γ t) : p.freeVars.In Γ.Declares :=
  match p, h with
  | .name y _, h => by
    obtain ⟨u, hu, -⟩ := h
    exact SortedSet.in_single.mpr ⟨u, hu⟩
  | .wildcard _, _ => SortedSet.in_empty
  | .elem .array y i _, h => by
    obtain ⟨u, n, hu, -, -, hi⟩ := h
    exact (SortedSet.in_single.mpr ⟨u, hu⟩).union (hi.known i)
  | .elem .tuple y i _, h => by
    obtain ⟨u, ts, n, hu, -, hn, -⟩ := h
    exact (SortedSet.in_single.mpr ⟨u, hu⟩).union (Value.in_of_constantIndex hn)

/-- The variables of what is well-typed are declared. -/
theorem Value.Typed.known (v : Value) {Γ t} (h : v.Typed fits Γ t) : v.freeVars.In Γ.Declares :=
  match v, h with
  | .expr e _, h => h.2.known e
  | .formula f _, h => h.2.known f
  | .place p _, h => by
    simp only [Value.Typed] at h
    exact h.known p
  | .tuple vs _, h | .array vs _, h | .call f vs _, h => by
    obtain ⟨_, -, -, hvs⟩ := h
    exact hvs.known vs
  | .ref v _ _, h | .deref v _, h => h.known v
  | .unit _, _ | .missing, _ => SortedSet.in_empty
  | .ite c v w _, h => ((h.1.known c).union (h.2.1.known v)).union (h.2.2.known w)
  | .select .array b i _, h => by
    obtain ⟨n, hb, -, hi⟩ := h
    exact (hb.known b).union (hi.known i)
  | .select .tuple b i _, h => by
    obtain ⟨ts, n, hb, hn, -⟩ := h
    exact (hb.known b).union (Value.in_of_constantIndex hn)
  | .store .array b i e _, h => by
    obtain ⟨u, n, -, hb, hi, he⟩ := h
    exact ((hb.known b).union (hi.known i)).union (he.known e)
  | .store .tuple b i e _, h => by
    obtain ⟨ts, n, u, -, hb, hn, -, he⟩ := h
    exact ((hb.known b).union (Value.in_of_constantIndex hn)).union (he.known e)

theorem Value.AllTyped.known (vs : List Value) {Γ ts} (h : Value.AllTyped fits Γ vs ts) :
    (Value.freeVarsAll vs).In Γ.Declares :=
  match vs, h with
  | [], _ => SortedSet.in_empty
  | v :: vs, h => by
    obtain ⟨u, us, -, hv, hvs⟩ := h
    exact (hv.known v).union (hvs.known vs)

theorem Expr.Typed.known (e : Expr) {Γ t} (h : e.Typed fits Γ t) : e.freeVars.In Γ.Declares :=
  match e, h with
  | .num _, _ => SortedSet.in_empty
  | .value v, h => by
    simp only [Expr.Typed] at h
    exact h.known v
  | .op _ a b, h => (h.2.1.known a).union (h.2.2.known b)

theorem Formula.Typed.known (f : Formula) {Γ} (h : f.Typed fits Γ) : f.freeVars.In Γ.Declares :=
  match f, h with
  | .lit _, _ => SortedSet.in_empty
  | .and f g, h | .or f g, h => (h.1.known f).union (h.2.known g)
  | .not f, h => h.known f
  | .value v, h => by
    simp only [Formula.Typed] at h
    exact h.known v
  | .equal a b, h | .compare _ a b, h => by
    obtain ⟨t, -, ha, hb⟩ := h
    exact (ha.known a).union (hb.known b)
  | .quant _ y t f, h => by
    refine SortedSet.in_erase.mpr ((h.known f).mono ?_)
    rintro x ⟨u, hu⟩
    rw [Scope.type?_declare] at hu
    split_ifs at hu with hyx
    · exact .inl hyx.symm
    · exact .inr ⟨u, hu⟩

end

mutual

theorem Place.Typed.isWhole (p : Place) {Γ t} (h : p.Typed fits Γ t) : p.isWhole = true :=
  match p, h with
  | .name _ _, _ | .wildcard _, _ => rfl
  | .elem .array _ i _, h => by
    obtain ⟨u, n, -, -, -, hi⟩ := h
    exact hi.isWhole i
  | .elem .tuple _ i _, h => by
    obtain ⟨u, ts, n, -, -, hn, -⟩ := h
    exact Value.isWhole_of_constantIndex hn

theorem Value.Typed.isWhole (v : Value) {Γ t} (h : v.Typed fits Γ t) : v.isWhole = true :=
  match v, h with
  | .expr e _, h => h.2.isWhole e
  | .formula f _, h => h.2.isWhole f
  | .place p _, h => by
    simp only [Value.Typed] at h
    exact h.isWhole p
  | .tuple vs _, h => by
    obtain ⟨ts, -, -, hvs⟩ := h
    exact hvs.isWhole vs
  | .array vs _, h => by
    obtain ⟨u, -, -, hvs⟩ := h
    exact hvs.isWhole vs
  | .call f vs _, h => by
    obtain ⟨g, -, -, hvs⟩ := h
    exact hvs.isWhole vs
  | .ref v _ _, h | .deref v _, h => h.isWhole v
  | .unit _, _ => rfl
  | .ite c v w _, h => by
    simp only [Value.isWhole, h.1.isWhole c, h.2.1.isWhole v, h.2.2.isWhole w, Bool.and_self]
  | .select .array b i _, h => by
    obtain ⟨n, hb, -, hi⟩ := h
    simp only [Value.isWhole, hb.isWhole b, hi.isWhole i, Bool.and_self]
  | .select .tuple b i _, h => by
    obtain ⟨ts, n, hb, hn, -⟩ := h
    simp only [Value.isWhole, hb.isWhole b, Value.isWhole_of_constantIndex hn, Bool.and_self]
  | .store .array b i e _, h => by
    obtain ⟨u, n, -, hb, hi, he⟩ := h
    simp only [Value.isWhole, hb.isWhole b, hi.isWhole i, he.isWhole e, Bool.and_self]
  | .store .tuple b i e _, h => by
    obtain ⟨ts, n, u, -, hb, hn, -, he⟩ := h
    simp only [Value.isWhole, hb.isWhole b, Value.isWhole_of_constantIndex hn, he.isWhole e,
      Bool.and_self]
  | .missing, h => by simp [Value.Typed] at h

theorem Value.AllTyped.isWhole (vs : List Value) {Γ ts} (h : Value.AllTyped fits Γ vs ts) :
    Value.areWhole vs = true :=
  match vs, h with
  | [], _ => rfl
  | v :: vs, h => by
    obtain ⟨u, us, -, hv, hvs⟩ := h
    simp only [Value.areWhole, hv.isWhole v, hvs.isWhole vs, Bool.and_self]

theorem Expr.Typed.isWhole (e : Expr) {Γ t} (h : e.Typed fits Γ t) : e.isWhole = true :=
  match e, h with
  | .num _, _ => rfl
  | .value v, h => by
    simp only [Expr.Typed] at h
    exact h.isWhole v
  | .op _ a b, h => by
    simp only [Expr.isWhole, h.2.1.isWhole a, h.2.2.isWhole b, Bool.and_self]

theorem Formula.Typed.isWhole (f : Formula) {Γ : Scope} (h : f.Typed fits Γ) : f.isWhole = true :=
  match f, h with
  | .lit _, _ => rfl
  | .and f g, h | .or f g, h => by
    simp only [Formula.isWhole, h.1.isWhole f, h.2.isWhole g, Bool.and_self]
  | .not f, h => h.isWhole f
  | .value v, h => by
    simp only [Formula.Typed] at h
    exact h.isWhole v
  | .equal a b, h | .compare _ a b, h => by
    obtain ⟨t, -, ha, hb⟩ := h
    simp only [Formula.isWhole, ha.isWhole a, hb.isWhole b, Bool.and_self]
  | .quant _ x t f, h => h.isWhole f

end

/-! ### Formulas and expressions that are made -/

variable {t : Ty} {f : Formula} {ρ' : Valuation}

theorem Value.Typed.toExpr {v : Value} (h : v.Typed fits Γ t) : v.toExpr.Typed fits Γ t := by
  cases v with
  | expr e o =>
    obtain ⟨rfl, he⟩ := h
    exact he
  | _ => exact h

theorem Expr.Typed.toValue {e : Expr} (h : e.Typed fits Γ .i32) : e.toValue.Typed fits Γ .i32 := by
  cases e with
  | value v => exact h
  | num n => exact ⟨rfl, h⟩
  | op o a b => exact ⟨rfl, h⟩

theorem Value.Typed.toFormula {v : Value} (h : v.Typed fits Γ .bool) : v.toFormula.Typed fits Γ := by
  cases v with
  | formula f o => exact h.2
  | _ => exact h

theorem Formula.Typed.toValue (h : f.Typed fits Γ) : f.toValue.Typed fits Γ .bool := by
  cases f with
  | value v => exact h
  | _ => exact ⟨rfl, h⟩

theorem Formula.Typed.negate (h : f.Typed fits Γ) : f.negate.Typed fits Γ := by
  cases f with
  | lit b => trivial
  | _ => exact h

theorem Formula.typed_conj {fs : List Formula} (h : ∀ f ∈ fs, f.Typed fits Γ) :
    (conj fs).Typed fits Γ :=
  conj_of trivial (fun _ _ hf hg => ⟨hf, hg⟩) h

theorem Formula.Typed.implies {g : Formula} (hf : f.Typed fits Γ) (hg : g.Typed fits Γ) :
    (f.implies g).Typed fits Γ :=
  implies_of trivial (fun _ _ hf hg => ⟨hf, hg⟩) hf.negate hg

/-! ### What well-typed values denote -/

namespace Ty

variable {t : Ty} {n : ℕ} {v : Val}

theorem Has.get_array (h : (Ty.array t n).Has v) (i : ℤ) : t.Has (v.get i) := by
  obtain ⟨f, rfl, hf⟩ := h
  exact hf i

theorem Has.put_array {w : Val} (h : (Ty.array t n).Has v) (i : ℤ) (hw : t.Has w) :
    (Ty.array t n).Has (v.put i w) := by
  obtain ⟨f, rfl, hf⟩ := h
  refine ⟨_, rfl, fun j => ?_⟩
  by_cases hj : j = i
  · subst hj
    simpa using hw
  · simpa [Function.update_of_ne hj] using hf j

theorem Has.get_tuple (h : (Ty.tuple ts).Has v) (ht : ts[n]? = some t) : t.Has (v.get n) := by
  obtain ⟨vs, rfl, hvs⟩ := h
  obtain ⟨w, hw, hwt⟩ := hvs.getElem? ht
  simpa [Val.get, hw] using hwt

theorem Has.put_tuple {w : Val} (h : (Ty.tuple ts).Has v) (ht : ts[n]? = some t) (hw : t.Has w) :
    (Ty.tuple ts).Has (v.put n w) := by
  obtain ⟨vs, rfl, hvs⟩ := h
  refine ⟨vs.set n w, by simp [Val.put], hvs.set ht hw⟩

end Ty

/-- Whether an interpretation gives values of the right types: functions give values of their output
type, and a literal array holds values of its element type outside its positions, which depend on that
type only. -/
structure Interp.Regular (I : Interp) (functions : List Function) : Prop where
  call : ∀ f g args, (functions.find? fun g => g.name == f) = some g →
    Ty.HasAll (g.inputs.map Declaration.type) args → g.output.Has (I.call f args)
  outside : ∀ t vs, vs ≠ [] → Ty.HasAll (List.replicate vs.length t) vs → t.Has (I.outside vs)
  outside_eq : ∀ t vs ws, vs ≠ [] → vs.length = ws.length →
    Ty.HasAll (List.replicate vs.length t) vs → Ty.HasAll (List.replicate ws.length t) ws →
      I.outside vs = I.outside ws

/-- The plain interpretation depends only on the types of calls. -/
theorem Interp.regular_plain {call : String → List Val → Val}
    (hcall : ∀ f g args, (functions.find? fun g => g.name == f) = some g →
      Ty.HasAll (g.inputs.map Declaration.type) args → g.output.Has (call f args))
    (byZero : Operator → ℤ → ℤ) : (Interp.plain call byZero).Regular functions := by
  have hblank : ∀ (t : Ty) (vs : List Val), vs ≠ [] → Ty.HasAll (List.replicate vs.length t) vs →
      (Interp.plain call byZero).outside vs = t.blank ∧ t.hasUnknown = false := by
    intro t vs hne hvs
    cases vs with
    | nil => exact absurd rfl hne
    | cons v vs =>
      obtain ⟨w, ws, heq, hw, -⟩ := hvs
      obtain ⟨rfl, rfl⟩ := List.cons.inj heq
      exact ⟨Ty.blank_of_has t v hw, Ty.known_of_has t v hw⟩
  refine ⟨hcall, fun t vs hne hvs => ?_, fun t vs ws hne hlen hvs hws => ?_⟩
  · rw [(hblank t vs hne hvs).1]
    exact Ty.has_blank t (hblank t vs hne hvs).2
  · have hne' : ws ≠ [] := by
      rintro rfl
      exact hne (List.length_eq_zero_iff.mp hlen)
    rw [(hblank t vs hne hvs).1, (hblank t ws hne' hws).1]

theorem Valuation.Fits.update {vars : NameMap Ty} (h : ρ.Fits vars) {x : String} {v : Val} (hv : t.Has v) :
    Valuation.Fits (Function.update ρ x v) (vars.insert x t) := by
  intro y u hu
  rw [NameMap.get?_insert] at hu
  split_ifs at hu with hxy
  · subst hxy
    cases hu
    simpa using hv
  · rw [Function.update_of_ne (Ne.symm hxy)]
    exact h y u hu

theorem Interp.Regular.literal (hI : I.Regular functions) {vs : List Val} (hne : vs ≠ [])
    (hvs : Ty.HasAll (List.replicate vs.length t) vs) :
    (Ty.array t vs.length).Has (I.literal vs) := by
  refine ⟨_, rfl, fun i => ?_⟩
  have hout := hI.outside t vs hne hvs
  split_ifs with hi
  · by_cases hlt : i.toNat < vs.length
    · obtain ⟨v, hv, ht⟩ := hvs.getElem? (List.getElem?_replicate_of_lt hlt)
      simpa [hv] using ht
    · rw [List.getElem?_eq_none (Nat.le_of_not_lt hlt)]
      exact hout
  · exact hout

theorem Value.evalAll_eq_map (vs : List Value) : Value.evalAll I ρ vs = vs.map (Value.eval I ρ) := by
  induction vs with
  | nil => rfl
  | cons v vs ih => rw [Value.evalAll, ih, List.map_cons]

@[simp] theorem Value.length_evalAll (vs : List Value) : (Value.evalAll I ρ vs).length = vs.length := by
  rw [evalAll_eq_map, List.length_map]

theorem Place.Typed.has_eval (p : Place) {Γ t} (h : p.Typed fits Γ t) {ρ : Valuation}
    (hρ : ρ.Fits Γ.vars) : t.Has (p.eval I ρ) :=
  match p, h with
  | .name x _, h => by
    obtain ⟨u, hu, rfl⟩ := h
    exact (Ty.has_bare u _).mpr (hρ x u hu)
  | .wildcard _, h => by simp [Place.Typed] at h
  | .elem .array x i _, h => by
    obtain ⟨u, n, hu, hb, -, -⟩ := h
    have hx := (Ty.has_bare u _).mpr (hρ x u hu)
    rw [hb] at hx
    exact hx.get_array _
  | .elem .tuple x i _, h => by
    obtain ⟨u, ts, n, hu, hb, hn, ht⟩ := h
    have hx := (Ty.has_bare u _).mpr (hρ x u hu)
    rw [hb] at hx
    simp only [Place.eval, Value.eval_of_constantIndex hn, Val.toInt]
    exact hx.get_tuple ht

mutual

/-- A well-typed value denotes a value of its type. -/
theorem Value.Typed.has_eval (v : Value) {Γ t} (h : v.Typed fits Γ t) (hI : I.Regular Γ.functions)
    {ρ : Valuation} (hρ : ρ.Fits Γ.vars) : t.Has (v.eval I ρ) :=
  match v, h with
  | .expr e _, h => by
    obtain ⟨rfl, he⟩ := h
    exact he.has_eval e hI hρ
  | .formula f _, h => by
    obtain ⟨rfl, -⟩ := h
    exact ⟨_, rfl⟩
  | .place p _, h => by
    simp only [Value.Typed] at h
    exact h.has_eval p hρ
  | .tuple vs _, h => by
    obtain ⟨ts, rfl, -, hvs⟩ := h
    exact ⟨_, rfl, hvs.has_eval vs hI hρ⟩
  | .array vs _, h => by
    obtain ⟨u, rfl, hne, hvs⟩ := h
    have hall := hvs.has_eval vs hI hρ
    have hne' : Value.evalAll I ρ vs ≠ [] := by simpa [← List.length_pos_iff] using hne.1
    have hlit := hI.literal (t := u) hne' (by simpa using hall)
    simpa [Value.eval] using hlit
  | .call f vs _, h => by
    obtain ⟨g, hg, rfl, hvs⟩ := h
    exact (Ty.has_bare _ _).mpr
      (hI.call f g _ hg ((Ty.hasAll_bareAll _ _).mp (hvs.has_eval vs hI hρ)))
  | .ref v _ _, h | .deref v _, h => h.has_eval v hI hρ
  | .unit _, h => by
    subst h
    rfl
  | .ite c v w _, h => by
    simp only [Value.eval]
    split_ifs
    · exact h.2.1.has_eval v hI hρ
    · exact h.2.2.has_eval w hI hρ
  | .select .array b i _, h => by
    obtain ⟨n, hb, -, -⟩ := h
    exact (hb.has_eval b hI hρ).get_array _
  | .select .tuple b i _, h => by
    obtain ⟨ts, n, hb, hn, ht⟩ := h
    simp only [Value.eval, Value.eval_of_constantIndex hn, Val.toInt]
    exact (hb.has_eval b hI hρ).get_tuple ht
  | .store .array b i e _, h => by
    obtain ⟨u, n, rfl, hb, -, he⟩ := h
    exact (hb.has_eval b hI hρ).put_array _ (he.has_eval e hI hρ)
  | .store .tuple b i e _, h => by
    obtain ⟨ts, n, u, rfl, hb, hn, hu, he⟩ := h
    simp only [Value.eval, Value.eval_of_constantIndex hn, Val.toInt]
    exact (hb.has_eval b hI hρ).put_tuple hu (he.has_eval e hI hρ)
  | .missing, h => by simp [Value.Typed] at h

theorem Value.AllTyped.has_eval (vs : List Value) {Γ ts} (h : Value.AllTyped fits Γ vs ts)
    (hI : I.Regular Γ.functions) {ρ : Valuation} (hρ : ρ.Fits Γ.vars) :
    Ty.HasAll ts (Value.evalAll I ρ vs) :=
  match vs, h with
  | [], h => by
    subst h
    rfl
  | v :: vs, h => by
    obtain ⟨u, us, rfl, hv, hvs⟩ := h
    exact ⟨_, _, rfl, hv.has_eval v hI hρ, hvs.has_eval vs hI hρ⟩

theorem Expr.Typed.has_eval (e : Expr) {Γ t} (h : e.Typed fits Γ t) (hI : I.Regular Γ.functions)
    {ρ : Valuation} (hρ : ρ.Fits Γ.vars) : t.Has (e.eval I ρ) :=
  match e, h with
  | .num _, h => by
    subst h
    exact ⟨_, rfl⟩
  | .value v, h => by
    simp only [Expr.Typed] at h
    exact h.has_eval v hI hρ
  | .op _ a b, h => by
    obtain ⟨rfl, -, -⟩ := h
    exact ⟨_, rfl⟩

end

/-! ### Static types -/

namespace Ty

theorem bare_eq_array : ∀ {u t : Ty} {n : ℕ}, u.bare = .array t n →
    ∃ e, u.underlying = .array e n ∧ e.bare = t
  | .array e m, t, n, h => by
    simp only [bare, array.injEq] at h
    exact ⟨e, by simp [underlying, h.2], h.1⟩
  | .ref u _, t, n, h => bare_eq_array (u := u) h
  | .bool, t, n, h | .i32, t, n, h | .unit, t, n, h | .unknown, t, n, h | .tuple _, t, n, h => by
    simp [bare] at h

theorem bare_eq_tuple : ∀ {u : Ty} {ts : List Ty}, u.bare = .tuple ts →
    ∃ us, u.underlying = .tuple us ∧ bareAll us = ts
  | .tuple us, ts, h => by
    simp only [bare, tuple.injEq] at h
    exact ⟨us, rfl, h⟩
  | .ref u _, ts, h => bare_eq_tuple (u := u) h
  | .bool, ts, h | .i32, ts, h | .unit, ts, h | .unknown, ts, h | .array _ _, ts, h => by
    simp [bare] at h

theorem bare_eq_unit : ∀ {u : Ty}, u.bare = .unit → u.underlying = .unit
  | .unit, _ => rfl
  | .ref u _, h => bare_eq_unit (u := u) h
  | .bool, h | .i32, h | .unknown, h | .tuple _, h | .array _ _, h => by cases h

theorem bare_underlying : ∀ u : Ty, u.underlying.bare = u.bare
  | .ref u _ => by simpa [underlying, bare] using bare_underlying u
  | .bool | .i32 | .unit | .unknown | .tuple _ | .array _ _ => rfl

theorem bare_deref (u : Ty) : u.deref.bare = u.bare := by
  cases u <;> rfl

theorem getElem?_bareAll (ts : List Ty) (n : ℕ) : (bareAll ts)[n]? = (ts[n]?).map bare := by
  rw [bareAll_eq_map, List.getElem?_map]

theorem elementType_array {u : Ty} {n : ℕ} (h : u.bare = .array t n) (i : Value) :
    ∃ e, u.elementType .array i = .ok e ∧ e.bare = t := by
  obtain ⟨e, he, hb⟩ := bare_eq_array h
  exact ⟨e, by simp [elementType, he], hb⟩

theorem elementType_tuple {u : Ty} {i : Value} {n : ℕ} (h : u.bare = .tuple ts)
    (hn : i.constantIndex? = some n) (ht : ts[n]? = some t) :
    ∃ e, u.elementType .tuple i = .ok e ∧ e.bare = t := by
  obtain ⟨us, hus, rfl⟩ := bare_eq_tuple h
  rw [getElem?_bareAll, Option.map_eq_some_iff] at ht
  obtain ⟨e, he, hb⟩ := ht
  exact ⟨e, by simp [elementType, hus, hn, he], hb⟩

end Ty

theorem Place.Typed.typeOf {p : Place} (h : p.Typed fits Γ t) : ∃ u, p.typeOf Γ = .ok u ∧ u.bare = t := by
  cases p with
  | name x o =>
    obtain ⟨u, hu, hb⟩ := h
    exact ⟨u, by simp [Place.typeOf, hu], hb⟩
  | wildcard o => simp [Place.Typed] at h
  | elem shape x i o =>
    cases shape with
    | array =>
      obtain ⟨u, n, hu, hb, -, -⟩ := h
      obtain ⟨e, he, hbe⟩ := Ty.elementType_array hb i
      exact ⟨e, by simp [Place.typeOf, hu, he, Except.mapError], hbe⟩
    | tuple =>
      obtain ⟨u, ts, n, hu, hb, hn, ht⟩ := h
      obtain ⟨e, he, hbe⟩ := Ty.elementType_tuple hb hn ht
      exact ⟨e, by simp [Place.typeOf, hu, he, Except.mapError], hbe⟩

theorem Value.typeOf_select {shape : Shape} {b i : Value} {o : Origin} :
    (Value.select shape b i o).typeOf Γ = .ok t ↔
      ∃ u, b.typeOf Γ = .ok u ∧ u.elementType shape i = .ok t := by
  simp only [Value.typeOf]
  cases b.typeOf Γ with
  | error e => simp [bind, Except.bind]
  | ok u => cases hu : u.elementType shape i <;> simp [bind, Except.bind, Except.mapError, hu]

mutual

/-- The static type of a well-typed value is its type. -/
theorem Value.Typed.typeOf : ∀ (v : Value) {t : Ty}, v.Typed fits Γ t →
    ∃ u, v.typeOf Γ = .ok u ∧ u.bare = t
  | .expr e _, t, h => by
    exact ⟨.i32, rfl, h.1.symm⟩
  | .formula f _, t, h => by
    exact ⟨.bool, rfl, h.1.symm⟩
  | .place p _, t, h => by
    simp only [Value.Typed] at h
    exact h.typeOf
  | .tuple vs _, t, h => by
    obtain ⟨ts, rfl, -, hvs⟩ := h
    obtain ⟨us, hus, rfl⟩ := hvs.typesOf vs
    exact ⟨.tuple us, by simp [Value.typeOf, hus, Except.map], rfl⟩
  | .array [] _, t, h => by
    obtain ⟨u, -, hne, -⟩ := h
    exact absurd rfl hne.1
  | .array (v :: vs) _, t, h => by
    obtain ⟨u, rfl, -, hvs⟩ := h
    obtain ⟨_, _, ⟨rfl, -⟩, hv, -⟩ := hvs
    obtain ⟨w, hw, rfl⟩ := hv.typeOf v
    exact ⟨.array w (vs.length + 1), by simp [Value.typeOf, hw, Except.map], rfl⟩
  | .call f vs _, t, h => by
    obtain ⟨g, hg, hb, -⟩ := h
    exact ⟨g.output, by simp [Value.typeOf, hg], hb⟩
  | .ref v m _, t, h => by
    obtain ⟨u, hu, hb⟩ := h.typeOf v
    exact ⟨.ref u m, by simp [Value.typeOf, hu, Except.map], hb⟩
  | .deref v _, t, h => by
    obtain ⟨u, hu, hb⟩ := h.typeOf v
    exact ⟨u.deref, by simp [Value.typeOf, hu, Except.map], (Ty.bare_deref u).trans hb⟩
  | .unit _, t, h => by
    exact ⟨.unit, rfl, h.symm⟩
  | .ite c v w _, t, h => by
    exact h.2.1.typeOf v
  | .select .array b i o, t, h => by
    obtain ⟨n, hb, -, -⟩ := h
    obtain ⟨u, hu, hbu⟩ := hb.typeOf b
    obtain ⟨e, he, hbe⟩ := Ty.elementType_array hbu i
    exact ⟨e, Value.typeOf_select.mpr ⟨u, hu, he⟩, hbe⟩
  | .select .tuple b i o, t, h => by
    obtain ⟨ts, n, hb, hn, ht⟩ := h
    obtain ⟨u, hu, hbu⟩ := hb.typeOf b
    obtain ⟨e, he, hbe⟩ := Ty.elementType_tuple hbu hn ht
    exact ⟨e, Value.typeOf_select.mpr ⟨u, hu, he⟩, hbe⟩
  | .store .array b i e _, t, h => by
    obtain ⟨u, n, -, hb, -, -⟩ := h
    exact hb.typeOf b
  | .store .tuple b i e _, t, h => by
    obtain ⟨ts, n, u, -, hb, -, -, -⟩ := h
    exact hb.typeOf b
  | .missing, t, h => by simp [Value.Typed] at h

theorem Value.AllTyped.typesOf : ∀ (vs : List Value) {ts : List Ty}, Value.AllTyped fits Γ vs ts →
    ∃ us, Value.typesOf Γ vs = .ok us ∧ Ty.bareAll us = ts
  | [], ts, h => ⟨[], rfl, h.symm⟩
  | v :: vs, ts, h => by
    obtain ⟨u, us, rfl, hv, hvs⟩ := h
    obtain ⟨w, hw, rfl⟩ := hv.typeOf v
    obtain ⟨ws, hws, rfl⟩ := hvs.typesOf vs
    exact ⟨w :: ws, by simp [Value.typesOf, hw, hws, bind, Except.bind, pure, Except.pure], rfl⟩

end

/-! ### Valuations that agree on the variables of a scope -/

/-- Whether two valuations agree on the variables that have a type. -/
def Valuation.AgreeFor (ρ ρ' : Valuation) (vars : NameMap Ty) : Prop :=
  ∀ x t, vars.get? x = some t → ρ x = ρ' x

theorem Value.Typed.eval_eq {v : Value} (h : v.Typed fits Γ t) (hρ : ρ.AgreeFor ρ' Γ.vars) :
    v.eval I ρ = v.eval I ρ' := by
  refine v.eval_congr fun x hx => ?_
  obtain ⟨u, hu⟩ := h.known v x hx
  exact hρ x u hu

theorem Expr.Typed.eval_eq {e : Expr} (h : e.Typed fits Γ t) (hρ : ρ.AgreeFor ρ' Γ.vars) :
    e.eval I ρ = e.eval I ρ' := by
  refine e.eval_congr fun x hx => ?_
  obtain ⟨u, hu⟩ := h.known e x hx
  exact hρ x u hu

theorem Formula.Typed.holds_iff (h : f.Typed fits Γ) (hρ : ρ.AgreeFor ρ' Γ.vars) :
    f.Holds I ρ ↔ f.Holds I ρ' := by
  refine f.holds_congr fun x hx => ?_
  obtain ⟨u, hu⟩ := h.known f x hx
  exact hρ x u hu

end Verdict
