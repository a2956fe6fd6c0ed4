import Verdict.Proofs.Substitution

/-! # What a successful encoding has done

An encoding may fail at any node. One that succeeds has encoded the parts of the node one after the
other, and has found the types and sorts that it asks for. Rules, one for each way to succeed, say what
has been encoded, what it was encoded as, and which declarations there were before and after. Every
property of encodings that succeed is proved along these rules. -/

namespace Verdict

namespace Encoding

variable {α β : Type} {a b : α} {d d' : Declarations} {m : EncodeM α} {f : α → EncodeM β}
  {o : Origin} {r : Encoded}

/-! ### Runs that succeed -/

/-- Whether an encoding succeeds with a result and with declarations, after earlier ones. -/
def Ran (m : EncodeM α) (d : Declarations) (a : α) (d' : Declarations) : Prop :=
  m.run.run d = (.ok a, d')

/-- Whether an encoding can give a result, whatever has been declared before. -/
def Yields (m : EncodeM α) (a : α) : Prop := ∃ d d', m.run.run d = (.ok a, d')

theorem Ran.yields (h : Ran m d a d') : Yields m a := ⟨d, d', h⟩

theorem run_bind (m : EncodeM α) (f : α → EncodeM β) (d : Declarations) :
    (m >>= f).run.run d =
      match m.run.run d with
      | (.ok a, d') => (f a).run.run d'
      | (.error e, d') => (.error e, d') := by
  simp only [ExceptT.run_bind, StateT.run_bind]
  rcases m.run.run d with ⟨e | a, d'⟩ <;> rfl

theorem ran_bind {b : β} : Ran (m >>= f) d b d' ↔ ∃ a d₁, Ran m d a d₁ ∧ Ran (f a) d₁ b d' := by
  unfold Ran
  rw [run_bind]
  rcases m.run.run d with ⟨e | a, d₁⟩
  · refine ⟨fun h => ?_, ?_⟩
    · cases h
    · rintro ⟨_, _, h, -⟩
      cases h
  · refine ⟨fun h => ⟨a, d₁, rfl, h⟩, ?_⟩
    rintro ⟨_, _, heq, h⟩
    cases heq
    exact h

theorem ran_pure : Ran (pure a) d b d' ↔ a = b ∧ d = d' := by
  change ((Except.ok a : Except Fault α), d) = (.ok b, d') ↔ _
  simp

theorem ran_fail {c : Cause} : Ran (fail o c) d a d' ↔ False := by
  refine ⟨fun h => ?_, False.elim⟩
  cases h

theorem ran_orFail {r : Except Cause α} : Ran (orFail r) d a d' ↔ r = .ok a ∧ d = d' := by
  cases r <;> simp [orFail, ran_pure, ran_fail]

theorem ran_lift {r : Except Fault α} : Ran (lift r) d a d' ↔ r = .ok a ∧ d = d' := by
  cases r with
  | error e =>
    refine ⟨fun h => ?_, fun h => ?_⟩
    · cases h
    · cases h.1
  | ok b => simp [lift, ran_pure]

theorem ran_lookup {env : Env} {x : String} {t : Ty} :
    Ran (lookup env x o) d t d' ↔ env.scope.type? x = some t ∧ d = d' := by
  unfold lookup
  split <;> simp [ran_pure, ran_fail, *]

theorem ran_requireSort {v : Value} {s : SmtSort} {r' : Encoded} :
    Ran (requireSort v s r) d r' d' ↔ r.sort = s ∧ r = r' ∧ d = d' := by
  unfold requireSort
  split <;> simp [ran_pure, ran_fail, *]

theorem ran_requireInt {e : Expr} {r' : Encoded} :
    Ran (requireInt e r) d r' d' ↔ (∀ v, e = .value v → r.sort = .int) ∧ r = r' ∧ d = d' := by
  cases e <;> simp [requireInt, ran_requireSort, ran_pure]

/-- The side conditions of an element of an array, at an index that may be known to be in bounds. -/
def elementChecks (i : Value) (n : ℕ) (index : Encoded) : List Check :=
  if i.constantIndex?.any fun k => (k : Int) < (Int64.ofNat n).toInt then index.checks
  else index.checks ++ [Check.index i index.term n]

theorem ran_arrayElement {array : Term} {e : Ty} {n : ℕ} {i : Value} {index : Encoded} :
    Ran (arrayElement array e n i index) d r d' ↔
      ∃ s, e.sortOf = .ok s ∧ ⟨elementChecks i n index, .select array index.term, s⟩ = r ∧ d = d' := by
  simp only [arrayElement, ran_bind, ran_orFail, ran_pure, elementChecks]
  grind

theorem ran_tupleElement {t : EncodedTuple} {i : Value} :
    Ran (tupleElement o t i) d r d' ↔ ∃ n e s, i.constantIndex? = some n ∧
      t.elements[n]? = some e ∧ e.sortOf = .ok s ∧
        ⟨t.checks, .select (part t.parts s) (.int (Int64.ofNat n)), s⟩ = r ∧ d = d' := by
  unfold tupleElement
  split
  · simp [ran_fail, *]
  · split
    · simp [ran_fail, *]
    · simp only [ran_bind, ran_orFail, ran_pure]
      grind

theorem ran_tupleType {env : Env} {v : Value} {ts : List Ty} :
    Ran (tupleType env v) d ts d' ↔
      (∃ t, v.typeOf env.scope = .ok t ∧ t.underlying = .tuple ts) ∧ d = d' := by
  simp only [tupleType, ran_bind, ran_lift]
  refine ⟨?_, ?_⟩
  · rintro ⟨t, d₁, ⟨ht, rfl⟩, h⟩
    split at h
    · next us hus =>
      obtain ⟨rfl, rfl⟩ := ran_pure.mp h
      exact ⟨⟨t, ht, hus⟩, rfl⟩
    · exact (ran_fail.mp h).elim
  · rintro ⟨⟨t, ht, hts⟩, rfl⟩
    refine ⟨t, d, ⟨ht, rfl⟩, ?_⟩
    rw [hts]
    exact ran_pure.mpr ⟨rfl, rfl⟩

theorem yields_pure (h : Yields (pure a) b) : a = b := by
  obtain ⟨d, d', h⟩ := h
  exact (ran_pure.mp h).1

theorem Yields.bind {b : β} (h : Yields (m >>= f) b) : ∃ a, Yields m a ∧ Yields (f a) b := by
  obtain ⟨d, d', h⟩ := h
  obtain ⟨a, d₁, hm, hf⟩ := ran_bind.mp h
  exact ⟨a, hm.yields, hf.yields⟩

theorem not_yields_fail {c : Cause} : ¬ Yields (fail o c) a := by
  rintro ⟨d, d', h⟩
  exact ran_fail.mp h

/-! ### The rules -/

mutual

inductive RunPlace : Env → Place → Declarations → Encoded → Declarations → Prop
  | name {env x o t s d d'} : env.scope.type? x = some t → t.sortOf = .ok s →
      Ran (declareConst env x s) d () d' → RunPlace env (.name x o) d ⟨[], .const x, s⟩ d'
  | array {env x i o t e n s index d d₁ d'} : env.scope.type? x = some t →
      t.underlying = .array e n → e.sortOf = .ok s → Ran (declareConst env x (.array s)) d () d₁ →
      RunValue env i d₁ index d' → index.sort = .int → RunPlace env (.elem .array x i o) d
        ⟨elementChecks i n index, .select (.const x) index.term, s⟩ d'
  | tuple {env x i o t ts parts n e s d d'} : env.scope.type? x = some t →
      t.underlying = .tuple ts → Ran (namedTuple env x .empty ts) d parts d' →
      i.constantIndex? = some n → ts[n]? = some e → e.sortOf = .ok s →
      RunPlace env (.elem .tuple x i o) d
        ⟨[], .select (part parts s) (.int (Int64.ofNat n)), s⟩ d'

/-- What a value that is not a tuple is encoded as. -/
inductive RunValue : Env → Value → Declarations → Encoded → Declarations → Prop
  | expr {env e o r d d'} : RunExpr env e d r d' → r.sort = .int → RunValue env (.expr e o) d r d'
  | formula {env f o r d d'} : RunFormula env f d r d' → RunValue env (.formula f o) d r d'
  | place {env p o r d d'} : RunPlace env p d r d' → RunValue env (.place p o) d r d'
  | array {env v vs o r r' d d₁ d'} : RunValue env v d r d₁ →
      RunElements env ⟨r.checks, .constArray r.sort r.term, .array r.sort⟩ r.sort 1 vs d₁ r' d' →
      RunValue env (.array (v :: vs) o) d r' d'
  | call {env f vs o g s as d d₁ d'} : env.scope.function? f = some g → g.output.sortOf = .ok s →
      RunArgs env vs d as d₁ → Ran (declareFun (functionName f) ⟨as.sorts, s⟩) d₁ () d' →
      RunValue env (.call f vs o) d ⟨as.checks, .app (functionName f) as.terms, s⟩ d'
  | ref {env v m o r d d'} : RunValue env v d r d' → RunValue env (.ref v m o) d r d'
  | deref {env v o r d d'} : RunValue env v d r d' → RunValue env (.deref v o) d r d'
  | ite {env c v w o rc rv rw d d₁ d₂ d'} : RunFormula env c d rc d₁ → RunValue env v d₁ rv d₂ →
      RunValue env w d₂ rw d' → rv.sort = rw.sort → RunValue env (.ite c v w o) d
        ⟨branchChecks c rc rv.checks rw.checks, .ite rc.term rv.term rw.term, rv.sort⟩ d'
  | element {env b i o r n e s d d'} : RunTuple env b d r d' → i.constantIndex? = some n →
      r.elements[n]? = some e → e.sortOf = .ok s → RunValue env (.select .tuple b i o) d
        ⟨r.checks, .select (part r.parts s) (.int (Int64.ofNat n)), s⟩ d'
  | select {env b i o t e n s array index d d₁ d'} : b.typeOf env.scope = .ok t →
      t.underlying = .array e n → RunValue env b d array d₁ → RunValue env i d₁ index d' →
      index.sort = .int → e.sortOf = .ok s → RunValue env (.select .array b i o) d
        ⟨array.checks ++ elementChecks i n index, .select array.term index.term, s⟩ d'
  | store {env b i e o array index r d d₁ d₂ d'} : RunValue env b d array d₁ →
      RunValue env i d₁ index d₂ → index.sort = .int → RunValue env e d₂ r d' →
      RunValue env (.store .array b i e o) d ⟨array.checks ++ index.checks ++ r.checks,
        .store array.term index.term r.term, array.sort⟩ d'

/-- What the further elements of a literal array are encoded as. -/
inductive RunElements : Env → Encoded → SmtSort → ℕ → List Value → Declarations → Encoded →
    Declarations → Prop
  | nil {env array s i d} : RunElements env array s i [] d array d
  | cons {env array s i v vs r r' d d₁ d'} : RunValue env v d r d₁ → r.sort = s →
      RunElements env ⟨array.checks ++ r.checks,
        .store array.term (.int (Int64.ofNat i)) r.term, array.sort⟩ s (i + 1) vs d₁ r' d' →
      RunElements env array s i (v :: vs) d r' d'

inductive RunArgs : Env → List Value → Declarations → EncodedArgs → Declarations → Prop
  | nil {env d} : RunArgs env [] d ⟨[], [], []⟩ d
  | tuple {env v vs t ts r as d d₁ d'} : v.typeOf env.scope = .ok t → t.underlying = .tuple ts →
      RunTuple env v d r d₁ → RunArgs env vs d₁ as d' → RunArgs env (v :: vs) d
        ⟨r.checks ++ as.checks, (tupleSorts r.elements).map (part r.parts) ++ as.terms,
          (tupleSorts r.elements).map .array ++ as.sorts⟩ d'
  | value {env v vs t r as d d₁ d'} : v.typeOf env.scope = .ok t →
      (∀ ts, t.underlying ≠ .tuple ts) → RunValue env v d r d₁ → RunArgs env vs d₁ as d' →
      RunArgs env (v :: vs) d
        ⟨r.checks ++ as.checks, r.term :: as.terms, r.sort :: as.sorts⟩ d'

inductive RunTuple : Env → Value → Declarations → EncodedTuple → Declarations → Prop
  | name {env x o o' t ts parts d d'} : env.scope.type? x = some t → t.underlying = .tuple ts →
      Ran (namedTuple env x .empty ts) d parts d' →
      RunTuple env (.place (.name x o) o') d ⟨[], parts, ts⟩ d'
  | literal {env vs o t ts r d d'} : (Value.tuple vs o).typeOf env.scope = .ok t →
      t.underlying = .tuple ts → RunLiteral env [] .empty 0 vs d r d' →
      RunTuple env (.tuple vs o) d ⟨r.1, r.2, ts⟩ d'
  | ref {env v m o t ts r d d'} : (Value.ref v m o).typeOf env.scope = .ok t →
      t.underlying = .tuple ts → RunTuple env v d r d' → RunTuple env (.ref v m o) d r d'
  | deref {env v o t ts r d d'} : (Value.deref v o).typeOf env.scope = .ok t →
      t.underlying = .tuple ts → RunTuple env v d r d' → RunTuple env (.deref v o) d r d'
  | ite {env c v w o t ts rc rv rw d d₁ d₂ d'} : (Value.ite c v w o).typeOf env.scope = .ok t →
      t.underlying = .tuple ts → RunFormula env c d rc d₁ → RunTuple env v d₁ rv d₂ →
      RunTuple env w d₂ rw d' → RunTuple env (.ite c v w o) d
        ⟨branchChecks c rc rv.checks rw.checks,
          rv.parts.map fun tag p => .ite rc.term p ((rw.parts.get? tag).getD .absent), ts⟩ d'
  | store {env s b i e o t ts rb n r d d₁ d'} :
      (Value.store s b i e o).typeOf env.scope = .ok t → t.underlying = .tuple ts →
      RunTuple env b d rb d₁ → i.constantIndex? = some n → n < ts.length → RunValue env e d₁ r d' →
      RunTuple env (.store s b i e o) d ⟨rb.checks ++ r.checks, rb.parts.insert r.sort.tag
        (.store (part rb.parts r.sort) (.int (Int64.ofNat n)) r.term), ts⟩ d'
  | call {env f vs o g ts as parts d d₁ d'} : env.scope.function? f = some g →
      g.output.underlying = .tuple ts → RunArgs env vs d as d₁ →
      Ran (callParts f as .empty (tupleSorts ts)) d₁ parts d' →
      RunTuple env (.call f vs o) d ⟨as.checks, parts, ts⟩ d'

/-- What the elements of a literal tuple are encoded as. -/
inductive RunLiteral : Env → List Check → NameMap Term → ℕ → List Value → Declarations →
    List Check × NameMap Term → Declarations → Prop
  | nil {env cs parts i d} : RunLiteral env cs parts i [] d (cs, parts) d
  | cons {env cs parts i v vs r r' d d₁ d'} : RunValue env v d r d₁ →
      RunLiteral env (cs ++ r.checks) (literalPart parts i r) (i + 1) vs d₁ r' d' →
      RunLiteral env cs parts i (v :: vs) d r' d'

inductive RunExpr : Env → Expr → Declarations → Encoded → Declarations → Prop
  | num {env n d} : RunExpr env (.num n) d ⟨[], .int (Int64.ofInt n.toInt), .int⟩ d
  | value {env v r d d'} : RunValue env v d r d' → RunExpr env (.value v) d r d'
  | op {env o a b ra rb d d₁ d'} : RunExpr env a d ra d₁ → ra.sort = .int →
      RunExpr env b d₁ rb d' → rb.sort = .int → RunExpr env (.op o a b) d
        ⟨ra.checks ++ rb.checks ++ operationChecks o b rb.term,
          .app (operatorName o) [ra.term, rb.term], .int⟩ d'

inductive RunFormula : Env → Formula → Declarations → Encoded → Declarations → Prop
  | lit {env b d} : RunFormula env (.lit b) d ⟨[], .lit b, .bool⟩ d
  | and {env f g rf rg d d₁ d'} : RunFormula env f d rf d₁ → RunFormula env g d₁ rg d' →
      RunFormula env (.and f g) d
        ⟨rf.checks ++ rg.checks.map (Check.guard f rf.term), .and [rf.term, rg.term], .bool⟩ d'
  | or {env f g rf rg d d₁ d'} : RunFormula env f d rf d₁ → RunFormula env g d₁ rg d' →
      RunFormula env (.or f g) d ⟨rf.checks ++ rg.checks.map (Check.guard f.negate rf.term.not),
        .or [rf.term, rg.term], .bool⟩ d'
  | not {env f r d d'} : RunFormula env f d r d' →
      RunFormula env (.not f) d ⟨r.checks, r.term.not, .bool⟩ d'
  | value {env v r d d'} : RunValue env v d r d' → r.sort = .bool → RunFormula env (.value v) d r d'
  | equal {env a b ra rb d d₁ d'} : RunExpr env a d ra d₁ → RunExpr env b d₁ rb d' →
      ra.sort = rb.sort →
      RunFormula env (.equal a b) d ⟨ra.checks ++ rb.checks, .eq ra.term rb.term, .bool⟩ d'
  | compare {env c a b ra rb t d d₁ d'} : RunExpr env a d ra d₁ → RunExpr env b d₁ rb d' →
      ra.sort = rb.sort → orderTerm c ra.sort ra.term rb.term = some t →
      RunFormula env (.compare c a b) d ⟨ra.checks ++ rb.checks, t, .bool⟩ d'
  | quant {env q x t f s r d d'} : t.sortOf = .ok s → RunFormula (env.bind x t) f d r d' →
      RunFormula env (.quant q x t f) d
        ⟨r.checks.map (Check.close x t s), .quant q x s r.term, .bool⟩ d'

end

theorem RunExpr.int {env e r} (h : RunExpr env e d r d') (hint : ∀ v, e = .value v → r.sort = .int) :
    r.sort = .int := by
  cases h with
  | num | op => rfl
  | value => exact hint _ rfl

mutual

theorem runs_place {p env d d' r} (h : Ran (place env p) d r d') : RunPlace env p d r d' :=
  match p, h with
  | .name x o, h => by
    simp only [place, ran_bind, ran_lookup] at h
    obtain ⟨t, _, ⟨ht, rfl⟩, h⟩ := h
    split at h
    · next s hs =>
      obtain ⟨_, d₁, hd, h⟩ := ran_bind.mp h
      obtain ⟨rfl, rfl⟩ := ran_pure.mp h
      exact .name ht hs hd
    · exact (ran_fail.mp h).elim
  | .wildcard o, h => by
    simp only [place, ran_fail] at h
  | .elem .array x i o, h => by
    simp only [place, ran_bind, ran_lookup] at h
    obtain ⟨t, _, ⟨ht, rfl⟩, h⟩ := h
    split at h
    · next e n hu =>
      simp only [ran_bind, ran_orFail, ran_requireSort, ran_arrayElement] at h
      obtain ⟨_, _, ⟨hs', rfl⟩, _, d₁, hd, index, d₂, hi, _, _, ⟨hint, rfl, rfl⟩, s, hs, rfl, rfl⟩ := h
      rw [Ty.sortOf, hs] at hs'
      cases hs'
      exact .array ht hu hs hd (runs_value hi) hint
    · exact (ran_fail.mp h).elim
  | .elem .tuple x i o, h => by
    simp only [place, ran_bind, ran_lookup] at h
    obtain ⟨t, _, ⟨ht, rfl⟩, h⟩ := h
    split at h
    · next ts hu =>
      simp only [ran_bind, ran_tupleElement] at h
      obtain ⟨parts, _, hparts, n, e, s, hn, he, hs, rfl, rfl⟩ := h
      exact .tuple ht hu hparts hn he hs
    · exact (ran_fail.mp h).elim

theorem runs_value {v env d d' r} (h : Ran (value env v) d r d') : RunValue env v d r d' :=
  match v, h with
  | .expr e o, h => by
    simp only [value, ran_bind, ran_requireInt] at h
    obtain ⟨r, _, he, hint, rfl, rfl⟩ := h
    exact .expr (runs_expr he) ((runs_expr he).int hint)
  | .formula f o, h => .formula (runs_formula h)
  | .place p o, h => .place (runs_place h)
  | .array (v :: vs) o, h => by
    simp only [value, ran_bind] at h
    obtain ⟨r, d₁, hv, hvs⟩ := h
    exact .array (runs_value hv) (runs_elements hvs)
  | .call f vs o, h => by
    simp only [value] at h
    split at h
    · exact (ran_fail.mp h).elim
    · next g hg =>
      split at h
      · exact (ran_fail.mp h).elim
      · next s hs =>
        simp only [ran_bind, ran_pure] at h
        obtain ⟨as, d₁, has, _, d₂, hd, rfl, rfl⟩ := h
        exact .call hg hs (runs_args has) hd
  | .ref v m o, h => .ref (runs_value h)
  | .deref v o, h => .deref (runs_value h)
  | .ite c v w o, h => by
    simp only [value, ran_bind] at h
    obtain ⟨rc, d₁, hc, rv, d₂, hv, rw, d₃, hw, h⟩ := h
    split_ifs at h with hsort
    · obtain ⟨rfl, rfl⟩ := ran_pure.mp h
      exact .ite (runs_formula hc) (runs_value hv) (runs_value hw) hsort
    · exact (ran_fail.mp h).elim
  | .select .tuple b i o, h => by
    simp only [value, ran_bind, ran_tupleElement] at h
    obtain ⟨t, _, hb, n, e, s, hn, he, hs, rfl, rfl⟩ := h
    exact .element (runs_tuple hb) hn he hs
  | .select .array b i o, h => by
    simp only [value, ran_bind, ran_lift] at h
    obtain ⟨t, _, ⟨ht, rfl⟩, h⟩ := h
    split at h
    · next e n hu =>
      simp only [ran_bind, ran_requireSort, ran_arrayElement, ran_pure] at h
      obtain ⟨array, d₁, hb, index, d₂, hi, _, _, ⟨hint, rfl, rfl⟩, _, _, ⟨s, hs, rfl, rfl⟩, rfl, rfl⟩ :=
        h
      exact .select ht hu (runs_value hb) (runs_value hi) hint hs
    · exact (ran_fail.mp h).elim
  | .store .array b i e o, h => by
    simp only [value, ran_bind, ran_requireSort, ran_pure] at h
    obtain ⟨array, d₁, hb, index, d₂, hi, _, _, ⟨hint, rfl, rfl⟩, r, d₃, he, rfl, rfl⟩ := h
    exact .store (runs_value hb) (runs_value hi) hint (runs_value he)
  | .array [] o, h | .store .tuple b i e o, h
  | .tuple vs o, h | .unit o, h | .missing, h => by
    simp only [value, ran_fail] at h

theorem runs_elements {vs env o array s i d d' r} (h : Ran (elements env o array s i vs) d r d') :
    RunElements env array s i vs d r d' :=
  match vs, h with
  | [], h => by
    obtain ⟨rfl, rfl⟩ := h
    exact .nil
  | v :: vs, h => by
    simp only [elements, ran_bind] at h
    obtain ⟨r, d₁, hv, h⟩ := h
    split_ifs at h with hsort
    · exact .cons (runs_value hv) hsort (runs_elements h)
    · exact (ran_fail.mp h).elim

theorem runs_args {vs env d d' as} (h : Ran (args env vs) d as d') : RunArgs env vs d as d' :=
  match vs, h with
  | [], h => by
    obtain ⟨rfl, rfl⟩ := h
    exact .nil
  | v :: vs, h => by
    simp only [args, ran_bind, ran_lift] at h
    obtain ⟨t, _, ⟨ht, rfl⟩, h⟩ := h
    split at h
    · next ts hu =>
      simp only [ran_bind, ran_pure] at h
      obtain ⟨r, d₁, hv, as, d₂, has, rfl, rfl⟩ := h
      exact .tuple ht hu (runs_tuple hv) (runs_args has)
    · next hu =>
      simp only [ran_bind, ran_pure] at h
      obtain ⟨r, d₁, hv, as, d₂, has, rfl, rfl⟩ := h
      exact .value ht hu (runs_value hv) (runs_args has)

theorem runs_tuple {v env d d' r} (h : Ran (tuple env v) d r d') : RunTuple env v d r d' :=
  match v, h with
  | .place (.name x o) o', h => by
    simp only [tuple, ran_bind, ran_tupleType, ran_pure] at h
    obtain ⟨ts, _, ⟨⟨t, ht, hu⟩, rfl⟩, parts, _, hparts, rfl, rfl⟩ := h
    simp only [Value.typeOf, Place.typeOf] at ht
    split at ht
    · next t' ht' =>
      obtain rfl := Except.ok.inj ht
      exact .name ht' hu hparts
    · cases ht
  | .tuple vs o, h => by
    simp only [tuple, ran_bind, ran_tupleType, ran_pure] at h
    obtain ⟨ts, _, ⟨⟨t, ht, hu⟩, rfl⟩, r, _, hvs, rfl, rfl⟩ := h
    exact .literal ht hu (runs_literal hvs)
  | .ref v m o, h | .deref v o, h => by
    simp only [tuple, ran_bind, ran_tupleType] at h
    obtain ⟨ts, _, ⟨⟨t, ht, hu⟩, rfl⟩, h⟩ := h
    constructor
    exacts [ht, hu, runs_tuple h]
  | .ite c v w o, h => by
    simp only [tuple, ran_bind, ran_tupleType, ran_pure] at h
    obtain ⟨ts, _, ⟨⟨t, ht, hu⟩, rfl⟩, rc, d₁, hc, rv, d₂, hv, rw, d₃, hw, rfl, rfl⟩ := h
    exact .ite ht hu (runs_formula hc) (runs_tuple hv) (runs_tuple hw)
  | .store s b i e o, h => by
    simp only [tuple, ran_bind, ran_tupleType] at h
    obtain ⟨ts, _, ⟨⟨t, ht, hu⟩, rfl⟩, rb, d₁, hb, h⟩ := h
    split at h
    · exact (ran_fail.mp h).elim
    · next n hn =>
      obtain ⟨hn, hlt⟩ := Option.filter_eq_some_iff.mp hn
      simp only [ran_bind, ran_pure] at h
      obtain ⟨r, d₂, he, rfl, rfl⟩ := h
      exact .store ht hu (runs_tuple hb) hn (of_decide_eq_true hlt) (runs_value he)
  | .call f vs o, h => by
    simp only [tuple, ran_bind, ran_tupleType, ran_pure] at h
    obtain ⟨ts, _, ⟨⟨t, ht, hu⟩, rfl⟩, as, d₁, has, parts, d₂, hparts, rfl, rfl⟩ := h
    simp only [Value.typeOf] at ht
    split at ht
    · next g hg =>
      obtain rfl := Except.ok.inj ht
      exact .call hg hu (runs_args has) hparts
    · cases ht
  | .expr _ _, h | .formula _ _, h
  | .place (.wildcard _) _, h | .place (.elem _ _ _ _) _, h
  | .array _ _, h | .unit _, h | .select _ _ _ _, h
  | .missing, h => by
    simp only [tuple, ran_bind, ran_fail, and_false, exists_false] at h

theorem runs_literal {vs env cs parts i d d' r} (h : Ran (literal env cs parts i vs) d r d') :
    RunLiteral env cs parts i vs d r d' :=
  match vs, h with
  | [], h => by
    obtain ⟨rfl, rfl⟩ := h
    exact .nil
  | v :: vs, h => by
    simp only [literal, ran_bind] at h
    obtain ⟨r, d₁, hv, hvs⟩ := h
    exact .cons (runs_value hv) (runs_literal hvs)

theorem runs_expr {e env d d' r} (h : Ran (expr env e) d r d') : RunExpr env e d r d' :=
  match e, h with
  | .num n, h => by
    obtain ⟨rfl, rfl⟩ := h
    exact .num
  | .value v, h => .value (runs_value h)
  | .op o a b, h => by
    simp only [expr, ran_bind, ran_requireInt, ran_pure] at h
    obtain ⟨ra, d₁, ha, _, _, ⟨hia, rfl, rfl⟩, rb, d₂, hb, _, _, ⟨hib, rfl, rfl⟩, rfl, rfl⟩ := h
    exact .op (runs_expr ha) ((runs_expr ha).int hia) (runs_expr hb) ((runs_expr hb).int hib)

/-- An encoding of a formula that succeeds follows the rules. -/
theorem runs_formula {f env d d' r} (h : Ran (formula env f) d r d') : RunFormula env f d r d' :=
  match f, h with
  | .lit b, h => by
    obtain ⟨rfl, rfl⟩ := h
    exact .lit
  | .and f g, h | .or f g, h => by
    simp only [formula, ran_bind, ran_pure] at h
    obtain ⟨rf, d₁, hf, rg, d₂, hg, rfl, rfl⟩ := h
    constructor
    · exact runs_formula hf
    · exact runs_formula hg
  | .not f, h => by
    simp only [formula, ran_bind, ran_pure] at h
    obtain ⟨r, d₁, hf, rfl, rfl⟩ := h
    exact .not (runs_formula hf)
  | .value v, h => by
    simp only [formula, ran_bind, ran_requireSort] at h
    obtain ⟨r, d₁, hv, hsort, rfl, rfl⟩ := h
    exact .value (runs_value hv) hsort
  | .equal a b, h => by
    simp only [formula, ran_bind] at h
    obtain ⟨ra, d₁, ha, rb, d₂, hb, h⟩ := h
    split_ifs at h with hsort
    · obtain ⟨rfl, rfl⟩ := ran_pure.mp h
      exact .equal (runs_expr ha) (runs_expr hb) hsort
    · exact (ran_fail.mp h).elim
  | .compare c a b, h => by
    simp only [formula, ran_bind] at h
    obtain ⟨ra, d₁, ha, rb, d₂, hb, h⟩ := h
    split_ifs at h with hsort
    · split at h
      · next t ht =>
        obtain ⟨rfl, rfl⟩ := ran_pure.mp h
        exact .compare (runs_expr ha) (runs_expr hb) hsort ht
      · exact (ran_fail.mp h).elim
    · exact (ran_fail.mp h).elim
  | .quant q x t f, h => by
    simp only [formula, ran_bind, ran_orFail, ran_pure] at h
    obtain ⟨s, _, ⟨hs, rfl⟩, r, d₁, hf, rfl, rfl⟩ := h
    exact .quant hs (runs_formula hf)

end

end Encoding

end Verdict
