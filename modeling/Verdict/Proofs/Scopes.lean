import Verdict.Proofs.FreeVariables
import Verdict.Proofs.Frames
import Verdict.Proofs.Written

/-! # Scoping rules and frames

What obeys the scoping rules has no free variables but those in scope, and all values outside its
quantifiers have a type. A frame that knows the variables in scope therefore allows every command that
obeys the rules and can be written down (`Frame.Serves.exists_step`). -/

namespace Verdict

variable {x : String} {p : Place}

namespace Scoping

/-- Whether a variable is in scope. -/
def Env.Knows (e : Env) (x : String) : Prop := ∃ v, e.vars.get? x = some v

variable {e : Env}

theorem Env.knows_add {y : String} {t : Ty} {m : Bool} (h : (e.add x t m).Knows y) :
    y = x ∨ e.Knows y := by
  obtain ⟨v, hv⟩ := h
  rw [Env.get?_add] at hv
  split_ifs at hv with hxy
  · exact .inl hxy.symm
  · exact .inr ⟨v, hv⟩

theorem Env.Knows.type? (h : e.Knows x) : ∃ t, e.scope.vars.get? x = some t := by
  obtain ⟨v, hv⟩ := h
  exact ⟨v.type, by rw [Env.type?_scope, hv]; rfl⟩

/-- What the rules say of a place that is read, its index aside. -/
theorem of_readPlace (h : readPlace e p = []) :
    p.base ≠ "" ∧ e.Knows p.base ∧ ∃ t, p.typeOf e.scope = .ok t := by
  unfold readPlace at h
  split at h
  · cases h
  · next hbase =>
    split at h
    · cases h
    · next hknown =>
      refine ⟨hbase, (NameMap.contains_iff _ _).mp (by simpa using hknown), ?_⟩
      split at h
      · next t ht => exact ⟨t, ht⟩
      · cases h

/-! ### Free variables -/

mutual

theorem in_of_readsPlace : ∀ (p : Place) {e : Env}, readsPlace e p = [] → p.freeVars.In e.Knows
  | .name x o, e, h => by
    simpa [Place.freeVars, Place.base] using (of_readPlace h).2.1
  | .wildcard o, e, h => SortedSet.in_empty
  | .elem s x i o, e, h => by
    simp only [readsPlace, List.append_eq_nil_iff] at h
    exact (SortedSet.in_single.mpr (of_readPlace h.1).2.1).union (in_of_readsValue i h.2)

theorem in_of_readsValue : ∀ (v : Value) {e : Env}, readsValue e v = [] → v.freeVars.In e.Knows
  | .expr a _, e, h => in_of_readsExpr a h
  | .formula f _, e, h => in_of_readsFormula f h
  | .place p _, e, h => in_of_readsPlace p h
  | .tuple vs _, e, h | .array vs _, e, h => in_of_readsValues vs h
  | .call f vs o, e, h => by
    simp only [readsValue, List.append_eq_nil_iff] at h
    exact in_of_readsValues vs h.2
  | .ref v _ _, e, h | .deref v _, e, h => in_of_readsValue v h
  | .unit _, e, h => SortedSet.in_empty
  | .ite c t f _, e, h => by
    simp only [readsValue, List.append_eq_nil_iff] at h
    exact ((in_of_readsFormula c h.1.1).union (in_of_readsValue t h.1.2)).union (in_of_readsValue f h.2)
  | .select _ b i _, e, h => by
    simp only [readsValue, List.append_eq_nil_iff] at h
    exact (in_of_readsValue b h.1).union (in_of_readsValue i h.2)
  | .store _ b i v _, e, h => by
    simp only [readsValue, List.append_eq_nil_iff] at h
    exact ((in_of_readsValue b h.1.1).union (in_of_readsValue i h.1.2)).union (in_of_readsValue v h.2)
  | .missing, e, h => SortedSet.in_empty

theorem in_of_readsValues : ∀ (vs : List Value) {e : Env}, readsValues e vs = [] →
    (Value.freeVarsAll vs).In e.Knows
  | [], e, h => SortedSet.in_empty
  | v :: vs, e, h => by
    simp only [readsValues, List.append_eq_nil_iff] at h
    exact (in_of_readsValue v h.1).union (in_of_readsValues vs h.2)

theorem in_of_readsExpr : ∀ (a : Expr) {e : Env}, readsExpr e a = [] → a.freeVars.In e.Knows
  | .num _, e, h => SortedSet.in_empty
  | .value v, e, h => in_of_readsValue v h
  | .op _ a b, e, h => by
    simp only [readsExpr, List.append_eq_nil_iff] at h
    exact (in_of_readsExpr a h.1).union (in_of_readsExpr b h.2)

theorem in_of_readsFormula : ∀ (f : Formula) {e : Env}, readsFormula e f = [] →
    f.freeVars.In e.Knows
  | .lit _, e, h => SortedSet.in_empty
  | .and f g, e, h | .or f g, e, h => by
    simp only [readsFormula, List.append_eq_nil_iff] at h
    exact (in_of_readsFormula f h.1).union (in_of_readsFormula g h.2)
  | .not f, e, h => in_of_readsFormula f h
  | .value v, e, h => in_of_readsValue v h
  | .equal a b, e, h | .compare _ a b, e, h => by
    simp only [readsFormula, List.append_eq_nil_iff] at h
    exact (in_of_readsExpr a h.1).union (in_of_readsExpr b h.2)
  | .quant q x t f, e, h => by
    simp only [readsFormula, List.append_eq_nil_iff] at h
    exact SortedSet.in_erase.mpr ((in_of_readsFormula f h.2).mono fun y hy => Env.knows_add hy)

end

/-! ### Types -/

/-- Whether a scope has the variables and functions of an environment. -/
structure Env.Within (e : Env) (Γ : Scope) : Prop where
  types : ∀ x t, e.scope.vars.get? x = some t → Γ.type? x = some t
  functions : Γ.functions = e.functions

theorem exists_typeOf_place {Γ : Scope} (hΓ : e.Within Γ) (h : readPlace e p = []) :
    ∃ t, p.typeOf Γ = .ok t := by
  obtain ⟨-, hknown, t, ht⟩ := of_readPlace h
  obtain ⟨u, hu⟩ := hknown.type?
  have hΓu := hΓ.types _ u hu
  have hu' : e.scope.type? p.base = some u := hu
  refine ⟨t, ?_⟩
  cases p with
  | name x o =>
    simp only [Place.typeOf, Place.base] at ht hu' hΓu ⊢
    rw [hΓu]
    rwa [hu'] at ht
  | wildcard o => cases ht
  | elem s x i o =>
    simp only [Place.typeOf, Place.base] at ht hu' hΓu ⊢
    rw [hΓu]
    rwa [hu'] at ht

mutual

/-- What is read and can be written down has a type. -/
theorem exists_typeOf {e : Env} {Γ : Scope} (hΓ : e.Within Γ) : ∀ (v : Value), v.Written →
    readsValue e v = [] → ∃ t, v.typeOf Γ = .ok t
  | .expr _ _, _, _ => ⟨.i32, rfl⟩
  | .formula _ _, _, _ => ⟨.bool, rfl⟩
  | .place p _, _, h => by
    refine exists_typeOf_place hΓ ?_
    simp only [readsValue] at h
    cases p with
    | name x o => exact h
    | wildcard o => exact h
    | elem s x i o =>
      simp only [readsPlace, List.append_eq_nil_iff] at h
      exact h.1
  | .tuple vs _, hw, h => by
    obtain ⟨ts, hts⟩ := exists_typesOf hΓ vs hw h
    exact ⟨.tuple ts, by simp only [Value.typeOf, hts, Except.map]⟩
  | .array [] _, _, _ => ⟨_, rfl⟩
  | .array (v :: vs) _, hw, h => by
    simp only [readsValue, readsValues, List.append_eq_nil_iff] at h
    obtain ⟨t, ht⟩ := exists_typeOf hΓ v hw.1 h.1
    exact ⟨.array t (vs.length + 1), by simp only [Value.typeOf, ht, Except.map]⟩
  | .call f vs o, _, h => by
    simp only [readsValue, List.append_eq_nil_iff, readCall] at h
    simp only [Value.typeOf, Scope.function?, hΓ.functions]
    split at h
    · exact absurd h.1 (by simp)
    · next g hg => exact ⟨g.output, by rw [hg]⟩
  | .ref v m _, hw, h => by
    obtain ⟨t, ht⟩ := exists_typeOf hΓ v hw h
    exact ⟨.ref t m, by simp only [Value.typeOf, ht, Except.map]⟩
  | .deref v _, hw, h => by
    obtain ⟨t, ht⟩ := exists_typeOf hΓ v hw h
    exact ⟨t.deref, by simp only [Value.typeOf, ht, Except.map]⟩
  | .unit _, _, _ => ⟨.unit, rfl⟩
  | .ite c v w _, hw, h => by
    simp only [readsValue, List.append_eq_nil_iff] at h
    exact exists_typeOf hΓ v hw.2.1 h.1.2

theorem exists_typesOf {e : Env} {Γ : Scope} (hΓ : e.Within Γ) : ∀ (vs : List Value),
    Value.AllWritten vs → readsValues e vs = [] → ∃ ts, Value.typesOf Γ vs = .ok ts
  | [], _, _ => ⟨[], rfl⟩
  | v :: vs, hw, h => by
    simp only [readsValues, List.append_eq_nil_iff] at h
    obtain ⟨t, ht⟩ := exists_typeOf hΓ v hw.1 h.1
    obtain ⟨ts, hts⟩ := exists_typesOf hΓ vs hw.2 h.2
    refine ⟨t :: ts, ?_⟩
    simp only [Value.typesOf, ht, hts]
    rfl

end

end Scoping

/-! ### Nodes outside quantifiers -/

namespace Node

/-- What is true of a node, and of its parts if it is entered, is true of all nodes that are visited. -/
theorem forall_with {enter : Node → Bool} {P : Node → Prop} {n : Node} {ns : List Node} (h : P n)
    (hns : enter n = true → ∀ m ∈ ns, P m) : ∀ m ∈ Node.with enter n ns, P m := by
  unfold Node.with
  split_ifs with henter
  · exact List.forall_mem_cons.mpr ⟨h, hns henter⟩
  · exact List.forall_mem_singleton.mpr h

/-- The nodes just below a node that is no command. -/
def parts : Node → List Node
  | .place (.elem _ _ i _) => [.value i]
  | .value (.expr a _) => [.expr a]
  | .value (.formula f _) => [.formula f]
  | .value (.place p _) => [.place p]
  | .value (.tuple vs _) | .value (.array vs _) | .value (.call _ vs _) => vs.map .value
  | .value (.ref v _ _) | .value (.deref v _) => [.value v]
  | .value (.ite c v w _) => [.formula c, .value v, .value w]
  | .value (.select _ b i _) => [.value b, .value i]
  | .value (.store _ b i v _) => [.value b, .value i, .value v]
  | .expr (.value v) | .formula (.value v) => [.value v]
  | .expr (.op _ a b) | .formula (.equal a b) | .formula (.compare _ a b) => [.expr a, .expr b]
  | .formula (.and f g) | .formula (.or f g) => [.formula f, .formula g]
  | .formula (.not f) | .formula (.quant _ _ _ f) => [.formula f]
  | _ => []

section Visit

variable {enter : Node → Bool} {P : Node → Prop}

/-- Whether the parts of entered nodes inherit a property. -/
def Inherited (enter : Node → Bool) (P : Node → Prop) : Prop :=
  ∀ n, P n → enter n = true → ∀ m ∈ n.parts, P m

mutual

/-- A property that the parts of entered nodes inherit is one of all visited nodes. -/
theorem forall_visit_place (hP : Inherited enter P) : ∀ (p : Place), P (.place p) → ∀ n ∈ p.visit enter, P n
  | .name x o, h | .wildcard o, h => List.forall_mem_singleton.mpr h
  | .elem s x i o, h => forall_with h fun henter =>
    forall_visit_value hP i (hP _ h henter _ (by simp [parts]))

theorem forall_visit_value (hP : Inherited enter P) : ∀ (v : Value), P (.value v) → ∀ n ∈ v.visit enter, P n
  | .expr a o, h => forall_with h fun henter => forall_visit_expr hP a (hP _ h henter _ (by simp [parts]))
  | .formula f o, h => forall_with h fun henter => forall_visit_formula hP f (hP _ h henter _ (by simp [parts]))
  | .place p o, h => forall_with h fun henter => forall_visit_place hP p (hP _ h henter _ (by simp [parts]))
  | .tuple vs o, h | .array vs o, h | .call f vs o, h => forall_with h fun henter =>
    forall_visit_values hP vs fun v hv => hP _ h henter _ (List.mem_map_of_mem hv)
  | .ref v m o, h | .deref v o, h => forall_with h fun henter =>
    forall_visit_value hP v (hP _ h henter _ (by simp [parts]))
  | .unit o, h => List.forall_mem_singleton.mpr h
  | .missing, h => fun n hn => nomatch hn
  | .ite c v w o, h => forall_with h fun henter => by
    obtain ⟨hc, hv, hw⟩ : P (.formula c) ∧ P (.value v) ∧ P (.value w) := by
      simpa [parts] using hP _ h henter
    simp only [List.forall_mem_append]
    exact ⟨⟨forall_visit_formula hP c hc, forall_visit_value hP v hv⟩, forall_visit_value hP w hw⟩
  | .select s b i o, h => forall_with h fun henter => by
    obtain ⟨hb, hi⟩ : P (.value b) ∧ P (.value i) := by simpa [parts] using hP _ h henter
    exact List.forall_mem_append.mpr ⟨forall_visit_value hP b hb, forall_visit_value hP i hi⟩
  | .store s b i v o, h => forall_with h fun henter => by
    obtain ⟨hb, hi, hv⟩ : P (.value b) ∧ P (.value i) ∧ P (.value v) := by
      simpa [parts] using hP _ h henter
    simp only [List.forall_mem_append]
    exact ⟨⟨forall_visit_value hP b hb, forall_visit_value hP i hi⟩, forall_visit_value hP v hv⟩

theorem forall_visit_values (hP : Inherited enter P) : ∀ (vs : List Value), (∀ v ∈ vs, P (.value v)) →
    ∀ n ∈ Value.visitAll enter vs, P n
  | [], h => fun n hn => nomatch hn
  | v :: vs, h => by
    obtain ⟨hv, hvs⟩ := List.forall_mem_cons.mp h
    exact List.forall_mem_append.mpr ⟨forall_visit_value hP v hv, forall_visit_values hP vs hvs⟩

theorem forall_visit_expr (hP : Inherited enter P) : ∀ (a : Expr), P (.expr a) → ∀ n ∈ a.visit enter, P n
  | .num k, h => List.forall_mem_singleton.mpr h
  | .value v, h => forall_with h fun henter => forall_visit_value hP v (hP _ h henter _ (by simp [parts]))
  | .op o a b, h => forall_with h fun henter => by
    obtain ⟨ha, hb⟩ : P (.expr a) ∧ P (.expr b) := by simpa [parts] using hP _ h henter
    exact List.forall_mem_append.mpr ⟨forall_visit_expr hP a ha, forall_visit_expr hP b hb⟩

theorem forall_visit_formula (hP : Inherited enter P) :
    ∀ (f : Formula), P (.formula f) → ∀ n ∈ f.visit enter, P n
  | .lit b, h => List.forall_mem_singleton.mpr h
  | .and f g, h | .or f g, h => forall_with h fun henter => by
    obtain ⟨hf, hg⟩ : P (.formula f) ∧ P (.formula g) := by simpa [parts] using hP _ h henter
    exact List.forall_mem_append.mpr ⟨forall_visit_formula hP f hf, forall_visit_formula hP g hg⟩
  | .not f, h | .quant q x t f, h => forall_with h fun henter =>
    forall_visit_formula hP f (hP _ h henter _ (by simp [parts]))
  | .value v, h => forall_with h fun henter => forall_visit_value hP v (hP _ h henter _ (by simp [parts]))
  | .equal a b, h | .compare c a b, h => forall_with h fun henter => by
    obtain ⟨ha, hb⟩ : P (.expr a) ∧ P (.expr b) := by simpa [parts] using hP _ h henter
    exact List.forall_mem_append.mpr ⟨forall_visit_expr hP a ha, forall_visit_expr hP b hb⟩

end

end Visit

end Node

namespace Scoping

/-- Whether a node obeys the rules and can be written down. -/
def NodeReads (e : Env) : Node → Prop
  | .value v => readsValue e v = [] ∧ v.Written
  | .expr a => readsExpr e a = [] ∧ a.Written
  | .formula f => readsFormula e f = [] ∧ f.Written
  | .place p => readsPlace e p = [] ∧ p.Written
  | .command _ => True

variable {e : Env} {o : Origin}

theorem reads_of_readsValues {vs : List Value} (h : readsValues e vs = []) :
    ∀ v ∈ vs, readsValue e v = [] := by
  induction vs with
  | nil => exact fun v hv => absurd hv List.not_mem_nil
  | cons v vs ih =>
    simp only [readsValues, List.append_eq_nil_iff] at h
    exact List.forall_mem_cons.mpr ⟨h.1, ih h.2⟩

theorem nodeReads_values {vs : List Value} (h : readsValues e vs = []) (hw : Value.AllWritten vs) :
    ∀ m ∈ vs.map Node.value, NodeReads e m := by
  intro m hm
  obtain ⟨v, hv, rfl⟩ := List.mem_map.mp hm
  exact ⟨reads_of_readsValues h v hv, Value.allWritten_iff.mp hw v hv⟩

/-- Parts of nodes obey the rules as the nodes do. -/
theorem nodeReads_parts : ∀ n, NodeReads e n → Frame.outsideQuantifiers n = true →
    ∀ m ∈ n.parts, NodeReads e m
  | .place (.name _ _), _, _ | .place (.wildcard _), _, _ | .value (.unit _), _, _ | .expr (.num _), _, _
  | .formula (.lit _), _, _ | .command _, _, _ => List.forall_mem_nil _
  | .place (.elem _ _ i _), h, _ => by
    simp only [NodeReads, readsPlace, List.append_eq_nil_iff] at h
    exact List.forall_mem_singleton.mpr ⟨h.1.2, h.2.2⟩
  | .value (.expr _ _), h, _ | .value (.formula _ _), h, _ | .value (.place _ _), h, _
  | .value (.ref _ _ _), h, _ | .value (.deref _ _), h, _ | .expr (.value _), h, _
  | .formula (.value _), h, _ | .formula (.not _), h, _ => List.forall_mem_singleton.mpr h
  | .value (.tuple vs _), h, _ | .value (.array vs _), h, _ => nodeReads_values h.1 h.2
  | .value (.call f vs _), h, _ => by
    simp only [NodeReads, readsValue, List.append_eq_nil_iff] at h
    exact nodeReads_values h.1.2 h.2
  | .value (.ite c v w _), h, _ => by
    simp only [NodeReads, readsValue, List.append_eq_nil_iff] at h
    obtain ⟨⟨⟨hc, hv⟩, hw⟩, hwc, hwv, hww⟩ := h
    simp only [Node.parts, List.forall_mem_cons]
    exact ⟨⟨hc, hwc⟩, ⟨hv, hwv⟩, ⟨hw, hww⟩, List.forall_mem_nil _⟩
  | .expr (.op _ a b), h, _ | .formula (.equal a b), h, _ | .formula (.compare _ a b), h, _
  | .formula (.and a b), h, _ | .formula (.or a b), h, _ => by
    simp only [NodeReads, readsExpr, readsFormula, List.append_eq_nil_iff] at h
    simp only [Node.parts, List.forall_mem_cons]
    exact ⟨⟨h.1.1, h.2.1⟩, ⟨h.1.2, h.2.2⟩, List.forall_mem_nil _⟩
  | .formula (.quant _ _ _ _), _, henter => nomatch henter
  | .value (.select _ _ _ _), h, _ | .value (.store _ _ _ _ _), h, _ | .value .missing, h, _ => h.2.elim

theorem visit_value {v : Value} (hw : v.Written) (h : readsValue e v = []) :
    ∀ n ∈ v.visit Frame.outsideQuantifiers, NodeReads e n :=
  Node.forall_visit_value nodeReads_parts v ⟨h, hw⟩

theorem visit_formula {f : Formula} (hw : f.Written) (h : readsFormula e f = []) :
    ∀ n ∈ f.visit Frame.outsideQuantifiers, NodeReads e n :=
  Node.forall_visit_formula nodeReads_parts f ⟨h, hw⟩

/-- What the rules say of a place that is assigned to. -/
theorem knows_of_writes (h : writes e o p = []) (hp : ∀ o, p ≠ .wildcard o) :
    readsPlace e p = [] ∧ e.Knows p.base ∧ '\'' ∉ p.base.toList := by
  have hboth : readsPlace e p = [] ∧ writeFaults e o p.base = [] := by
    cases p with
    | wildcard o' => exact absurd rfl (hp o')
    | name x o' | elem s x i o' => simpa only [writes, List.append_eq_nil_iff] using h
  obtain ⟨hreads, hwrite⟩ := hboth
  refine ⟨hreads, ?_, ?_⟩
  · cases p with
    | wildcard o' => exact absurd rfl (hp o')
    | name x o' => exact (of_readPlace hreads).2.1
    | elem s x i o' =>
      simp only [readsPlace, List.append_eq_nil_iff] at hreads
      exact (of_readPlace hreads.1).2.1
  · unfold writeFaults at hwrite
    split at hwrite
    · cases hwrite
    · next hquote => simpa using hquote

/-- Where a variable is declared does not matter to the rules. -/
theorem declareFaults_eq_nil {t : Ty} (h : declareFaults e o x t = []) (o' : Origin) :
    declareFaults e o' x t = [] := by
  unfold declareFaults at h ⊢
  split_ifs at h ⊢ <;> simp_all

theorem functions_declare (e : Env) (x : String) (t : Ty) (m : Bool) :
    (declare e x t m).functions = e.functions := by
  unfold declare
  split_ifs <;> rfl

theorem functions_declareAll (o : Origin) (ds : List Declaration) (e : Env) :
    (declareAll o e ds).1.functions = e.functions := by
  induction ds generalizing e with
  | nil => rfl
  | cons d ds ih => exact (ih _).trans (functions_declare e d.name d.type d.mutable)

theorem functions_foldl_declare (ds : List Declaration) (e : Env) :
    (ds.foldl (fun e d => declare e d.name d.type d.mutable) e).functions = e.functions := by
  induction ds generalizing e with
  | nil => rfl
  | cons d ds ih => exact (ih _).trans (functions_declare e d.name d.type d.mutable)

theorem functions_foldl_add (ds : List Declaration) (e : Env) :
    (ds.foldl (fun (e : Env) d => e.add (oldName d.name) d.type false) e).functions = e.functions := by
  induction ds generalizing e with
  | nil => rfl
  | cons d ds ih => exact ih _

/-- What is read by a function that obeys the rules. -/
theorem reads_of_function {functions : List Function} {f : Function} (h : function functions f = []) :
    readsFormula (f.inputEnv functions) f.precondition = [] ∧
      readsValue (f.exitEnv functions) f.result = [] ∧
      readsFormula (f.postEnv functions) f.postcondition = [] := by
  unfold function at h
  have hfold := of_foldl_declare f.inputs (⟨.empty, functions⟩, [])
  simp only [List.map_eq_nil_iff, List.append_eq_nil_iff, hfold.1] at h
  exact ⟨h.1.1.1.2, h.1.2, h.2⟩

theorem of_functions {all : List Function} {seen : List String} {fs : List Function}
    (h : functions all seen fs = []) : ∀ f ∈ fs, function all f = [] := by
  induction fs generalizing seen with
  | nil => exact fun f hf => nomatch hf
  | cons f fs ih =>
    simp only [functions, List.append_eq_nil_iff] at h
    exact List.forall_mem_cons.mpr ⟨h.1.2, ih h.2⟩

theorem functions_command (e : Env) (c : Command) : (command e c).1.functions = e.functions := by
  cases c with
  | declare d | bind d v => exact functions_declare e d.name d.type d.mutable
  | bindTuple ds v o => exact functions_declareAll o ds e
  | _ => rfl

theorem functions_inputEnv (functions : List Function) (f : Function) :
    (f.inputEnv functions).functions = functions := functions_foldl_declare f.inputs _

theorem functions_entryEnv (functions : List Function) (f : Function) :
    (f.entryEnv functions).functions = functions :=
  (functions_foldl_add f.inputs _).trans (functions_inputEnv functions f)

theorem wildcard_declare (h : e.vars.get? "_" = none) (x : String) (t : Ty) (m : Bool) :
    (declare e x t m).vars.get? "_" = none := by
  unfold declare
  split_ifs with hx
  · exact h
  · rwa [Env.get?_add, if_neg hx]

theorem wildcard_declareAll {ds : List Declaration} (h : e.vars.get? "_" = none) :
    (declareAll o e ds).1.vars.get? "_" = none := by
  induction ds generalizing e with
  | nil => exact h
  | cons d ds ih => exact ih (wildcard_declare h d.name d.type d.mutable)

theorem wildcard_block {cs : List Command} (h : e.vars.get? "_" = none) :
    (block e cs).1.vars.get? "_" = none := by
  induction cs generalizing e with
  | nil => exact h
  | cons c cs ih =>
    refine ih (e := (command e c).1) ?_
    cases c with
    | declare d | bind d v => exact wildcard_declare h d.name d.type d.mutable
    | bindTuple ds v o => exact wildcard_declareAll h
    | _ => exact h

theorem wildcard_entryEnv (functions : List Function) (f : Function) :
    (f.entryEnv functions).vars.get? "_" = none := by
  have hinputs : ∀ (ds : List Declaration) {e : Env}, e.vars.get? "_" = none →
      (ds.foldl (fun e d => declare e d.name d.type d.mutable) e).vars.get? "_" = none := by
    intro ds
    induction ds with
    | nil => exact fun h => h
    | cons d ds ih => exact fun h => ih (wildcard_declare h d.name d.type d.mutable)
  have holds : ∀ (ds : List Declaration) {e : Env}, e.vars.get? "_" = none →
      (ds.foldl (fun (e : Env) d => e.add (oldName d.name) d.type false) e).vars.get? "_" = none := by
    intro ds
    induction ds with
    | nil => exact fun h => h
    | cons d ds ih =>
      refine fun h => ih ?_
      rw [Env.get?_add, if_neg, h]
      exact fun hd => absurd (hd ▸ quote_mem_oldName d.name) (by decide)
  exact holds f.inputs (hinputs f.inputs rfl)

end Scoping

/-! ### Frames -/

namespace Frame

open Scoping

/-- Whether a frame allows what the rules allow in an environment. -/
structure Serves (fs : List Function) (f : Frame) (e : Env) : Prop extends f.Covers fs e where
  env : e.functions = fs
  quoted : ∀ x t, f.olds.get? x = some t → '\'' ∈ x.toList

variable {functions : List Function} {f f' : Frame} {e : Env}

theorem Serves.within (h : f.Serves functions e) : e.Within f.scope := by
  refine ⟨fun x t hx => h.scopeOver .empty (h.types x t hx), ?_⟩
  rw [h.env]
  exact h.functions

/-- A variable in scope is one of the frame, unless it is a value on entry. -/
theorem Serves.exists_find? (h : f.Serves functions e) (hx : e.Knows x) (hquote : '\'' ∉ x.toList) :
    ∃ v, f.find? x = some v := by
  obtain ⟨t, ht⟩ := hx.type?
  have htype := h.types x t ht
  unfold type? at htype
  split at htype
  · next v hv => exact ⟨v, hv⟩
  · exact absurd (h.quoted x t htype) hquote

theorem exists_recordAll {ns : List Node} (he : e.Within f.scope) (hns : ∀ n ∈ ns, NodeReads e n) :
    ∃ f', f.recordAll ns = .ok f' := by
  induction ns generalizing f with
  | nil => exact ⟨f, rfl⟩
  | cons n ns ih =>
    have htail : ∀ m ∈ ns, NodeReads e m := fun m hm => hns m (List.mem_cons_of_mem n hm)
    cases n with
    | value v =>
      obtain ⟨hreads, hw⟩ := hns _ List.mem_cons_self
      obtain ⟨t, ht⟩ := exists_typeOf he v hw hreads
      simp only [recordAll, record, bind, Except.bind, ht]
      split_ifs
      · exact ih he htail
      · exact ih he htail
    | expr a | formula g | place p | command c => exact ih he htail

variable {o : Origin} {v : Value} {ds : List Declaration} {c : Command} {g : Function}

theorem exists_recordValue (he : e.Within f.scope) (hw : v.Written) (h : readsValue e v = []) :
    ∃ f', f.recordValue v = .ok f' :=
  exists_recordAll he (visit_value hw h)

theorem exists_recordFormula {g : Formula} (he : e.Within f.scope) (hw : g.Written)
    (h : readsFormula e g = []) : ∃ f', f.recordFormula g = .ok f' :=
  exists_recordAll he (visit_formula hw h)

/-- A variable whose declaration obeys the rules can be declared. -/
theorem exists_declare {d : Declaration} (v : Option Value) (hd : d.name ≠ "_")
    (h : declareFaults e o d.name d.type = []) : ∃ f', f.declare d v = .ok f' := by
  unfold declare
  rw [if_neg]
  · exact ⟨_, rfl⟩
  · simp [(of_declareFaults h hd).2.2]

theorem exists_declareAll {i : ℕ} (h : (Scoping.declareAll o e ds).2 = []) :
    ∃ f', f.declareAll v i ds = .ok f' := by
  induction ds generalizing f e i with
  | nil => exact ⟨f, rfl⟩
  | cons d ds ih =>
    simp only [Scoping.declareAll, List.append_eq_nil_iff] at h
    unfold declareAll
    split_ifs with hd
    · exact ih h.2
    · obtain ⟨f₁, hf₁⟩ := exists_declare (f := f)
        (some (.element .tuple v (.int (Int32.ofNat i)))) hd h.1
      simp only [hf₁, bind, Except.bind]
      exact ih h.2

theorem exists_assign {a : Assignment} (h : f.Serves functions e) (hw : a.Written)
    (hreads : readsValue e a.value = []) (hwrites : writes e o a.target = []) :
    ∃ f', f.assign a = .ok f' := by
  unfold assign
  split
  · exact exists_recordValue h.within hw.2 hreads
  · next p hp =>
    obtain ⟨-, hknown, hquote⟩ := knows_of_writes hwrites hp
    obtain ⟨v, hv⟩ := h.exists_find? hknown hquote
    rw [hv]
    have htypes : types (setVar { v with value := some (assigned v a) } f.vars) = types f.vars :=
      types_setVar_of_find hv rfl rfl
    have hserves : Serves functions
        { f with vars := setVar { v with value := some (assigned v a) } f.vars } e :=
      ⟨h.toCovers.of_types_eq rfl htypes rfl, h.env, h.quoted⟩
    exact exists_recordValue hserves.within hw.2 hreads

theorem Serves.assign {a : Assignment} (h : f.Serves functions e) (ha : f.assign a = .ok f') :
    f'.Serves functions e := by
  obtain ⟨h1, h2, h3⟩ := of_assign ha
  exact ⟨h.toCovers.of_types_eq h1 h2 h3, h.env, h3 ▸ h.quoted⟩

theorem exists_assignAll {as : List Assignment} (h : f.Serves functions e) (hw : ∀ a ∈ as, a.Written)
    (hreads : ∀ a ∈ as, readsValue e a.value = []) (hwrites : ∀ a ∈ as, writes e o a.target = []) :
    ∃ f', as.foldlM Frame.assign f = .ok f' := by
  induction as generalizing f with
  | nil => exact ⟨f, rfl⟩
  | cons a as ih =>
    obtain ⟨f₁, hf₁⟩ := exists_assign h (hw a List.mem_cons_self) (hreads a List.mem_cons_self)
      (hwrites a List.mem_cons_self)
    simp only [List.foldlM_cons, hf₁, bind, Except.bind]
    exact ih (h.assign hf₁) (fun b hb => hw b (List.mem_cons_of_mem a hb))
      (fun b hb => hreads b (List.mem_cons_of_mem a hb))
      fun b hb => hwrites b (List.mem_cons_of_mem a hb)

theorem olds_of_declareAll {i : ℕ} (h : f.declareAll v i ds = .ok f') : f'.olds = f.olds := by
  induction ds generalizing f i with
  | nil =>
    cases h
    rfl
  | cons d ds ih =>
    unfold declareAll at h
    split_ifs at h
    · exact ih h
    · obtain ⟨f₁, hf₁, h⟩ := ok_of_bind h
      rw [ih h, (of_declare hf₁).2]

/-- Values on entry stay known. -/
theorem olds_of_step (h : f.step c = .ok f') : f'.olds = f.olds := by
  cases c with
  | declare d => rw [(of_declare h).2]
  | bind d v =>
    obtain ⟨f₁, hf₁, h⟩ := ok_of_bind h
    rw [of_recordAll h, (of_declare hf₁).2]
  | bindTuple ds v o =>
    obtain ⟨f₁, hf₁, h⟩ := ok_of_bind h
    have holds := olds_of_declareAll hf₁
    rw [of_recordAll h]
    exact holds
  | assign a => exact (of_assign h).2.2
  | assignAll as o => exact (of_assignAll h).2.2
  | assume g o | assert g o | invariant g o => rw [of_recordAll h]
  | cond bs o | forRange i lo hi inv body o | whileLoop c inv variant body o | noop o =>
    cases h
    rfl

/-- A frame that serves an environment leads to one that serves what comes after a command. -/
theorem Serves.step (h : f.Serves functions e) (hc : (Scoping.command e c).2 = []) (hstep : f.step c = .ok f') :
    f'.Serves functions (Scoping.command e c).1 :=
  ⟨h.toCovers.step hc hstep, (functions_command e c).trans h.env, olds_of_step hstep ▸ h.quoted⟩

/-- A frame that serves an environment allows every command that obeys the rules and can be written
down. -/
theorem Serves.exists_step (h : f.Serves functions e) (hw : c.Written) (hc : (Scoping.command e c).2 = []) :
    ∃ f', f.step c = .ok f' := by
  cases c with
  | declare d => exact exists_declare none hw hc
  | bind d v =>
    simp only [Scoping.command, List.append_eq_nil_iff] at hc
    obtain ⟨f₁, hf₁⟩ := exists_declare (f := f) (some v) hw.1 hc.2
    have hcov := (h.toCovers.declare hc.2 hf₁).before (declare_extends d.mutable hc.2)
    have hserves₁ : f₁.Serves functions e := ⟨hcov, h.env, by rw [(of_declare hf₁).2]; exact h.quoted⟩
    simp only [Frame.step, hf₁, bind, Except.bind]
    exact exists_recordValue hserves₁.within hw.2 hc.1
  | bindTuple ds v o =>
    simp only [Scoping.command, List.append_eq_nil_iff] at hc
    obtain ⟨f₁, hf₁⟩ := exists_declareAll (f := f) (v := v) (i := 0) hc.2
    have hcov := (h.toCovers.declareAll hc.2 hf₁).before (declareAll_extends hc.2)
    have hserves₁ : f₁.Serves functions e := ⟨hcov, h.env, olds_of_declareAll hf₁ ▸ h.quoted⟩
    simp only [Frame.step, hf₁, bind, Except.bind]
    exact exists_recordValue hserves₁.within hw hc.1
  | assign a =>
    simp only [Scoping.command, List.append_eq_nil_iff] at hc
    exact exists_assign h hw hc.1 hc.2
  | assignAll as o =>
    simp only [Scoping.command, List.append_eq_nil_iff, List.flatMap_eq_nil_iff] at hc
    exact exists_assignAll h hw hc.1 hc.2
  | assume g o => exact exists_recordFormula (f := { f with assumptions := _ }) h.within hw hc
  | assert g o | invariant g o => exact exists_recordFormula h.within hw hc
  | cond bs o | forRange i lo hi inv body o | whileLoop c inv variant body o | noop o => exact ⟨f, rfl⟩

/-! ### The frame on entry -/

theorem exists_declareInputs (hd : Scoping.Declares e ds) (hw : ∀ d ∈ ds, d.name ≠ "_") :
    ∃ f', f.declareInputs ds = .ok f' := by
  induction ds generalizing f e with
  | nil => exact ⟨f, rfl⟩
  | cons d ds ih =>
    obtain ⟨f₁, hf₁⟩ := exists_declare (f := f) none (hw d List.mem_cons_self) hd.1
    simp only [declareInputs, hf₁, bind, Except.bind]
    exact ih hd.2 fun d' hd' => hw d' (List.mem_cons_of_mem d hd')

/-- The frame of the inputs of a function that obeys the rules. -/
theorem serves_inputs (hd : Scoping.Declares ⟨.empty, functions⟩ g.inputs)
    (hf : (Frame.mk functions [] [] [] .empty).declareInputs g.inputs = .ok f) :
    f.Serves functions (g.inputEnv functions) := by
  have hempty : HoldsInputs functions ⟨functions, [], [], [], .empty⟩ ⟨.empty, functions⟩ := by
    refine ⟨⟨rfl, ?_, ?_, rfl, rfl, List.nodup_nil, List.Pairwise.nil⟩, ?_, ?_⟩
    all_goals exact fun x t hx => nomatch hx
  obtain ⟨hinputs, holds⟩ := hempty.declareInputs hd hf
  refine ⟨hinputs.covers, functions_foldl_declare g.inputs _, fun x t hx => ?_⟩
  exact quote_mem_of_addOlds (m := .empty) (fun y v hy => nomatch hy) (holds ▸ hx)

theorem serves_entry (hd : Scoping.Declares ⟨.empty, functions⟩ g.inputs)
    (hf : Frame.entry functions g = .ok f) : f.Serves functions (g.entryEnv functions) := by
  refine ⟨(covers_entry hd hf).2, ?_, ?_⟩
  · exact functions_entryEnv functions g
  · obtain ⟨f₁, hf₁, hf⟩ := ok_of_bind hf
    rw [of_recordAll hf]
    exact (serves_inputs hd hf₁).quoted

theorem exists_entry (hd : Scoping.Declares ⟨.empty, functions⟩ g.inputs) (hw : g.Written)
    (hpre : readsFormula (g.inputEnv functions) g.precondition = []) :
    ∃ f, Frame.entry functions g = .ok f := by
  obtain ⟨f₁, hf₁⟩ := exists_declareInputs (f := ⟨functions, [], [], [], .empty⟩) hd hw.inputs
  simp only [Frame.entry, hf₁, bind, Except.bind]
  exact exists_recordFormula (f := { f₁ with assumptions := [g.precondition] })
    (serves_inputs hd hf₁).within hw.precondition hpre

end Frame

end Verdict
