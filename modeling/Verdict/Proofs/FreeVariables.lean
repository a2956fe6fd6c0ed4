import Verdict.Proofs.SideConditions

/-! # Where free variables come from

Substitution leaves only free variables that are not replaced, and those of the replacements of the others
(`Substitution.leaves_subst`). A side condition has no free variables but those of what it makes well-defined. -/

namespace Verdict

variable {x : String}

variable {K : String → Prop} {f : Formula}

/-! ### Simplification -/

@[simp] theorem Value.freeVars_var (x : String) : (Value.var x).freeVars = .single x := rfl

theorem Value.freeVars_toExpr (v : Value) : v.toExpr.freeVars = v.freeVars := by
  cases v <;> rfl

theorem Expr.freeVars_toValue (e : Expr) : e.toValue.freeVars = e.freeVars := by
  cases e <;> rfl

theorem Value.freeVars_toFormula (v : Value) : v.toFormula.freeVars = v.freeVars := by
  cases v <;> rfl

theorem Formula.freeVars_toValue (f : Formula) : f.toValue.freeVars = f.freeVars := by
  cases f <;> rfl

theorem Formula.freeVars_negate (f : Formula) : f.negate.freeVars = f.freeVars := by
  cases f <;> rfl

namespace Formula

theorem in_conj {fs : List Formula} (h : ∀ f ∈ fs, f.freeVars.In K) : (conj fs).freeVars.In K :=
  conj_of (by simp [freeVars]) (fun _ _ hf hg => by simp [freeVars, hf, hg]) h

theorem in_implies {g : Formula} (hf : f.freeVars.In K) (hg : g.freeVars.In K) :
    (f.implies g).freeVars.In K :=
  implies_of (P := fun f => f.freeVars.In K) (by simp [freeVars])
    (fun _ _ hf hg => by simp [freeVars, hf, hg]) (f.freeVars_negate ▸ hf) hg

end Formula

namespace Value

theorem in_ternary {c : Formula} {v w : Value} (hc : c.freeVars.In K) (hv : v.freeVars.In K)
    (hw : w.freeVars.In K) : (ternary c v w).freeVars.In K := by
  unfold ternary
  split_ifs
  · exact hv
  · exact hw
  · exact hv
  · simp [freeVars, hc, hv, hw]

theorem in_freeVarsAll {vs : List Value} : (freeVarsAll vs).In K ↔ ∀ v ∈ vs, v.freeVars.In K := by
  induction vs with
  | nil => simp [freeVarsAll]
  | cons v vs ih => simp [freeVarsAll, ih]

variable {index : Value}

theorem Finds.in_freeVars {s : Shape} {v whole r : Value} (hr : Finds s index whole v r)
    (hindex : index.freeVars.In K) (hv : v.freeVars.In K) (hwhole : whole.freeVars.In K) :
    r.freeVars.In K := by
  induction hr with
  | ref _ ih | deref _ ih => exact ih hv hwhole
  | name => exact hv.union hindex
  | tuple _ hw | array _ hw => exact in_freeVarsAll.mp hv _ (List.mem_of_getElem? hw)
  | hit => exact hv.right
  | miss _ _ _ _ ih => exact ih hv.left.left hv.left.left
  | ite _ _ _ ihv ihw =>
    exact in_ternary hv.left.left (ihv hv.left.right hv.left.right) (ihw hv.right hv.right)
  | select => exact hwhole.union hindex

theorem in_element {shape : Shape} {base : Value} (hbase : base.freeVars.In K)
    (hindex : index.freeVars.In K) : (element shape base index).freeVars.In K :=
  finds_elementOf.in_freeVars hindex hbase hbase

theorem in_update {shape : Shape} {base element : Value} (hbase : base.freeVars.In K)
    (hindex : index.freeVars.In K) (helement : element.freeVars.In K) :
    (update shape base index element).freeVars.In K := by
  have hset : ∀ (vs : List Value) (i : ℕ), (freeVarsAll vs).In K →
      (freeVarsAll (vs.set i element)).In K := by
    intro vs i hvs
    rw [in_freeVarsAll] at hvs ⊢
    intro v hv
    rcases List.mem_or_eq_of_mem_set hv with hv | rfl
    · exact hvs v hv
    · exact helement
  unfold update
  split
  · split_ifs
    · exact hset _ _ hbase
    · simp_all [freeVars]
  · split_ifs
    · exact hset _ _ hbase
    · simp_all [freeVars]
  · simp [freeVars, hbase, hindex, helement]

end Value

/-! ### Substitution -/

/-- Whether the replacements of some variables have only some free variables. -/
def Substitution.Maps (m : Substitution) (xs : Names) (K : String → Prop) : Prop :=
  xs.In fun x => (m.image x).freeVars.In K

namespace Substitution.Maps

variable {m : Substitution} {xs ys : Names}

theorem left (h : m.Maps (xs.union ys) K) : m.Maps xs K := SortedSet.In.left h

theorem right (h : m.Maps (xs.union ys) K) : m.Maps ys K := SortedSet.In.right h

/-- Below a binder only its variable may be free in addition. -/
theorem enter (h : m.Maps (xs.erase x) K) :
    (m.enter x xs).2.Maps xs fun y => y = (m.enter x xs).1 ∨ K y := by
  intro z hz
  by_cases hzx : z = x
  · subst hzx
    rw [image_enter_self]
    simp
  · rw [image_enter_of_ne m hz hzx]
    exact (h z ((SortedSet.mem_erase _ _ _).mpr ⟨hz, hzx⟩)).mono fun _ => .inr

end Substitution.Maps

mutual

theorem Place.in_substRead (p : Place) {m K} (o : Origin) (h : m.Maps p.freeVars K) :
    (p.substRead m o).freeVars.In K :=
  match p, h with
  | .name x o', h => by
    have hx := h x (by simp [Place.freeVars])
    simp only [Place.substRead]
    unfold Substitution.image at hx
    cases hg : m.get? x with
    | none => simpa [hg, Value.freeVars, Place.freeVars] using hx
    | some v => simpa [hg] using hx
  | .wildcard _, h => by simp [Place.substRead, Value.freeVars, Place.freeVars]
  | .elem shape x i _, h => Value.in_element (h.left x (by simp)) (i.in_substNonempty h.right)

theorem Value.in_substNonempty (v : Value) {m K} (h : m.Maps v.freeVars K) :
    (v.substNonempty m).freeVars.In K :=
  match v, h with
  | .expr e _, h => by
    simp only [Value.substNonempty, Expr.freeVars_toValue]
    exact e.in_substNonempty h
  | .formula f _, h => by
    simp only [Value.substNonempty, Formula.freeVars_toValue]
    exact f.in_substNonempty h
  | .place p o, h => p.in_substRead o h
  | .tuple vs _, h | .array vs _, h | .call _ vs _, h => Value.in_substAll vs h
  | .ref v _ _, h | .deref v _, h => v.in_substNonempty h
  | .unit _, h => by simp [Value.substNonempty, Value.freeVars]
  | .ite c t e _, h =>
    Value.in_ternary (c.in_substNonempty h.left.left) (t.in_substNonempty h.left.right)
      (e.in_substNonempty h.right)
  | .select shape b i _, h => Value.in_element (b.in_substNonempty h.left) (i.in_substNonempty h.right)
  | .store shape b i e _, h => by
    simp only [Value.substNonempty, Value.freeVars, SortedSet.in_union]
    exact ⟨⟨b.in_substNonempty h.left.left, i.in_substNonempty h.left.right⟩,
      e.in_substNonempty h.right⟩
  | .missing, h => by simp [Value.substNonempty, Value.freeVars]

theorem Value.in_substAll (vs : List Value) {m K} (h : m.Maps (Value.freeVarsAll vs) K) :
    (Value.freeVarsAll (Value.substAll m vs)).In K :=
  match vs, h with
  | [], h => by simp [Value.substAll, Value.freeVarsAll]
  | v :: vs, h => by
    simp only [Value.substAll, Value.freeVarsAll, SortedSet.in_union]
    exact ⟨v.in_substNonempty h.left, Value.in_substAll vs h.right⟩

theorem Expr.in_substNonempty (e : Expr) {m K} (h : m.Maps e.freeVars K) :
    (e.substNonempty m).freeVars.In K :=
  match e, h with
  | .num _, h => by simp [Expr.substNonempty, Expr.freeVars]
  | .value v, h => by
    simp only [Expr.substNonempty, Value.freeVars_toExpr]
    exact v.in_substNonempty h
  | .op _ a b, h => by
    simp only [Expr.substNonempty, Expr.freeVars, SortedSet.in_union]
    exact ⟨a.in_substNonempty h.left, b.in_substNonempty h.right⟩

theorem Formula.in_substNonempty (f : Formula) {m K} (h : m.Maps f.freeVars K) :
    (f.substNonempty m).freeVars.In K :=
  match f, h with
  | .lit _, h => by simp [Formula.substNonempty, Formula.freeVars]
  | .and f g, h | .or f g, h => by
    simp only [Formula.substNonempty, Formula.freeVars, SortedSet.in_union]
    exact ⟨f.in_substNonempty h.left, g.in_substNonempty h.right⟩
  | .not f, h => f.in_substNonempty h
  | .value v, h => by
    simp only [Formula.substNonempty, Value.freeVars_toFormula]
    exact v.in_substNonempty h
  | .equal a b, h | .compare _ a b, h => by
    simp only [Formula.substNonempty, Formula.freeVars, SortedSet.in_union]
    exact ⟨a.in_substNonempty h.left, b.in_substNonempty h.right⟩
  | .quant q x t f, h => by
    simp only [Formula.substNonempty]
    split_ifs with hempty
    · -- No free variable of the formula is replaced.
      intro z hz
      obtain ⟨hzf, hzx⟩ := (SortedSet.mem_erase _ _ _).mp hz
      simpa [Substitution.image_of_below_isEmpty hempty hzf hzx] using h z hz
    · simp only [Formula.freeVars]
      exact SortedSet.in_erase.mpr (f.in_substNonempty h.enter)

end

section

variable {m : Substitution}

theorem Substitution.Maps.of_isEmpty {xs : Names} (h : m.Maps xs K) (hm : m.isEmpty = true) : xs.In K := by
  intro x hx
  simpa [Substitution.image_of_isEmpty hm] using h x hx

theorem Value.in_subst {v : Value} (h : m.Maps v.freeVars K) : (v.subst m).freeVars.In K := by
  unfold subst
  split_ifs with hm
  · exact h.of_isEmpty hm
  · exact v.in_substNonempty h

theorem Expr.in_subst {e : Expr} (h : m.Maps e.freeVars K) : (e.subst m).freeVars.In K := by
  unfold subst
  split_ifs with hm
  · exact h.of_isEmpty hm
  · exact e.in_substNonempty h

theorem Formula.in_subst (h : m.Maps f.freeVars K) : (f.subst m).freeVars.In K := by
  unfold subst
  split_ifs with hm
  · exact h.of_isEmpty hm
  · exact f.in_substNonempty h

/-- Whether a variable may be left by a substitution in what had some free variables: it is one of them
that is not replaced, or is free in the replacement of one of them. -/
def Substitution.Leaves (m : Substitution) (xs : Names) (y : String) : Prop :=
  (y ∈ xs.members ∧ m.get? y = none) ∨
    ∃ x ∈ xs.members, ∃ v, m.get? x = some v ∧ y ∈ v.freeVars.members

theorem Substitution.maps_leaves (m : Substitution) (xs : Names) : m.Maps xs (m.Leaves xs) := by
  intro x hx
  unfold image
  cases hg : m.get? x with
  | none => exact SortedSet.in_single.mpr (.inl ⟨hx, hg⟩)
  | some v => exact fun y hy => .inr ⟨x, hx, v, hg, hy⟩

/-- Substitution leaves no other variables free, also where it simplifies and where it renames bound
variables. -/
theorem Substitution.leaves_subst (m : Substitution) :
    (∀ v : Value, ∀ y ∈ (v.subst m).freeVars.members, m.Leaves v.freeVars y) ∧
      (∀ e : Expr, ∀ y ∈ (e.subst m).freeVars.members, m.Leaves e.freeVars y) ∧
      ∀ f : Formula, ∀ y ∈ (f.subst m).freeVars.members, m.Leaves f.freeVars y :=
  ⟨fun v => Value.in_subst (m.maps_leaves v.freeVars), fun e => Expr.in_subst (m.maps_leaves e.freeVars),
    fun f => Formula.in_subst (m.maps_leaves f.freeVars)⟩

/-- A bound `x` gets another name where `x` is put for a free variable. -/
theorem Substitution.leaves_subst_renamed :
    let f : Formula := .quant .all "x" .i32 (.compare .lt (.value (.var "x")) (.value (.var "y")))
    let m : Substitution := .ofList [("y", .var "x")]
    (f.subst m).freeVars.members = ["x"] ∧ m.Leaves f.freeVars "x" := by
  intro f m
  have hfree : (f.subst m).freeVars.members = ["x"] := by cbv
  exact ⟨hfree, m.leaves_subst.2.2 f "x" (by rw [hfree]; exact List.mem_singleton_self _)⟩

end

/-! ### Side conditions -/

/-- Whether the free variables of side conditions satisfy a condition. -/
def Check.AllIn (cs : List Check) (K : String → Prop) : Prop := ∀ c ∈ cs, c.cond.freeVars.In K

namespace Check

variable {cs ds : List Check}

@[simp] theorem allIn_nil : AllIn [] K := by simp [AllIn]

@[simp] theorem allIn_append : AllIn (cs ++ ds) K ↔ AllIn cs K ∧ AllIn ds K := by
  simp [AllIn, or_imp, forall_and]

theorem AllIn.guard (h : AllIn cs K) (hf : f.freeVars.In K) (t : Term) :
    AllIn (cs.map (Check.guard f t)) K := by
  intro c hc
  obtain ⟨c', hc', rfl⟩ := List.mem_map.mp hc
  exact Formula.in_implies hf (h c' hc')

theorem AllIn.close (h : AllIn cs fun y => y = x ∨ K y) (t : Ty) (s : SmtSort) :
    AllIn (cs.map (Check.close x t s)) K := by
  intro c hc
  obtain ⟨c', hc', rfl⟩ := List.mem_map.mp hc
  exact SortedSet.in_erase.mpr (h c' hc')

theorem allIn_index {i : Value} (h : i.freeVars.In K) (t : Term) (n : ℕ) :
    AllIn [Check.index i t n] K := by
  intro c hc
  obtain rfl := List.mem_singleton.mp hc
  simp only [index]
  refine Formula.in_conj fun f hf => ?_
  simp only [List.mem_cons, List.not_mem_nil, or_false] at hf
  rcases hf with rfl | rfl <;> simp [Formula.freeVars, Expr.freeVars, Value.freeVars_toExpr, h]

end Check

namespace Encoding

open Check

theorem allIn_elementChecks {i : Value} {n : ℕ} {index : Encoded} (hindex : AllIn index.checks K)
    (hi : i.freeVars.In K) : AllIn (elementChecks i n index) K := by
  unfold elementChecks
  split_ifs
  · exact hindex
  · exact allIn_append.mpr ⟨hindex, allIn_index hi _ _⟩

theorem allIn_operationChecks {o : Operator} {e : Expr} {t : Term} (h : e.freeVars.In K) :
    AllIn (operationChecks o e t) K := by
  have hdivisor : AllIn [Check.divisor e t] K := by
    intro c hc
    obtain rfl := List.mem_singleton.mp hc
    simp [Check.divisor, Formula.notEqual, Formula.freeVars, Expr.freeVars, h]
  unfold operationChecks
  split
  · split_ifs
    · exact hdivisor
    · exact allIn_nil
  · split_ifs
    · exact hdivisor
    · exact allIn_nil
  · exact hdivisor
  · exact hdivisor
  · exact allIn_nil

theorem allIn_branchChecks {c : Formula} {r : Encoded} {cs ds : List Check} (hc : c.freeVars.In K)
    (hr : AllIn r.checks K) (hcs : AllIn cs K) (hds : AllIn ds K) :
    AllIn (branchChecks c r cs ds) K := by
  unfold branchChecks
  rw [allIn_append, allIn_append]
  exact ⟨⟨hr, hcs.guard hc _⟩, hds.guard (c.freeVars_negate ▸ hc) _⟩

mutual

theorem allIn_place {K p env d d' r} (h : RunPlace env p d r d') (hK : p.freeVars.In K) :
    AllIn r.checks K := by
  cases h with
  | name | tuple => exact allIn_nil
  | array _ _ _ _ hi => exact allIn_elementChecks (allIn_value hi hK.right) hK.right

theorem allIn_value {K v env d d' r} (h : RunValue env v d r d') (hK : v.freeVars.In K) :
    AllIn r.checks K := by
  cases h with
  | expr he => exact allIn_expr he hK
  | formula hf => exact allIn_formula hf hK
  | place hp => exact allIn_place hp hK
  | array hv hvs => exact allIn_elements hvs (allIn_value hv hK.left :) hK.right
  | call _ _ has => exact allIn_args has hK
  | ref hv | deref hv => exact allIn_value hv hK
  | ite hc hv hw =>
    exact allIn_branchChecks hK.left.left (allIn_formula hc hK.left.left) (allIn_value hv hK.left.right)
      (allIn_value hw hK.right)
  | element hb => exact (allIn_tuple hb hK.left :)
  | select _ _ hb hi =>
    exact allIn_append.mpr ⟨allIn_value hb hK.left, allIn_elementChecks (allIn_value hi hK.right) hK.right⟩
  | store hb hi _ he =>
    simp only [allIn_append]
    exact ⟨⟨allIn_value hb hK.left.left, allIn_value hi hK.left.right⟩, allIn_value he hK.right⟩

theorem allIn_elements {K vs env array r s i d d'} (h : RunElements env array s i vs d r d')
    (ha : AllIn array.checks K) (hK : (Value.freeVarsAll vs).In K) : AllIn r.checks K := by
  cases h with
  | nil => exact ha
  | cons hv _ hvs =>
    exact allIn_elements hvs (allIn_append.mpr ⟨ha, allIn_value hv hK.left⟩) hK.right

theorem allIn_args {K vs env d d' r} (h : RunArgs env vs d r d') (hK : (Value.freeVarsAll vs).In K) :
    AllIn r.checks K := by
  cases h with
  | nil => exact allIn_nil
  | tuple _ _ hv hvs => exact allIn_append.mpr ⟨allIn_tuple hv hK.left, allIn_args hvs hK.right⟩
  | value _ _ hv hvs => exact allIn_append.mpr ⟨allIn_value hv hK.left, allIn_args hvs hK.right⟩

theorem allIn_tuple {K v env d d' r} (h : RunTuple env v d r d') (hK : v.freeVars.In K) :
    AllIn r.checks K := by
  cases h with
  | name => exact allIn_nil
  | literal _ _ hvs => exact allIn_literal hvs allIn_nil hK
  | ref _ _ hv | deref _ _ hv => exact allIn_tuple hv hK
  | ite _ _ hc hv hw =>
    exact allIn_branchChecks hK.left.left (allIn_formula hc hK.left.left) (allIn_tuple hv hK.left.right)
      (allIn_tuple hw hK.right)
  | store _ _ hb _ _ he =>
    exact allIn_append.mpr ⟨allIn_tuple hb hK.left.left, allIn_value he hK.right⟩
  | call _ _ has => exact allIn_args has hK

theorem allIn_literal {K vs env cs parts i d d' r} (h : RunLiteral env cs parts i vs d r d')
    (hcs : AllIn cs K) (hK : (Value.freeVarsAll vs).In K) : AllIn r.1 K := by
  cases h with
  | nil => exact hcs
  | cons hv hvs => exact allIn_literal hvs (allIn_append.mpr ⟨hcs, allIn_value hv hK.left⟩) hK.right

theorem allIn_expr {K e env d d' r} (h : RunExpr env e d r d') (hK : e.freeVars.In K) : AllIn r.checks K := by
  cases h with
  | num => exact allIn_nil
  | value hv => exact allIn_value hv hK
  | op ha _ hb =>
    simp only [allIn_append]
    exact ⟨⟨allIn_expr ha hK.left, allIn_expr hb hK.right⟩, allIn_operationChecks hK.right⟩

theorem allIn_formula {K f env d d' r} (h : RunFormula env f d r d') (hK : f.freeVars.In K) :
    AllIn r.checks K := by
  cases h with
  | lit => exact allIn_nil
  | and hf hg =>
    exact allIn_append.mpr ⟨allIn_formula hf hK.left, (allIn_formula hg hK.right).guard hK.left _⟩
  | @or _ f _ _ _ _ _ _ hf hg =>
    exact allIn_append.mpr ⟨allIn_formula hf hK.left,
      (allIn_formula hg hK.right).guard (f.freeVars_negate ▸ hK.left) _⟩
  | not hf => exact (allIn_formula hf hK :)
  | value hv => exact allIn_value hv hK
  | equal ha hb | compare ha hb =>
    exact allIn_append.mpr ⟨allIn_expr ha hK.left, allIn_expr hb hK.right⟩
  | quant _ hf => exact (allIn_formula hf (SortedSet.in_erase.mp hK)).close _ _

end

end Encoding

end Verdict
