import Verdict.Proofs.EncodingRuns

/-! # Side conditions say when a node is well-defined

Encoding a node lists its side conditions. For a well-typed node they are well-typed formulas, and
where all of them are true the node is well-defined. The converse needs array lengths that are words,
since a side condition compares an index with the length as a word. -/

namespace Verdict

/-! ### Lists of side conditions -/

variable {fits : Bounds} {Γ : Scope} {I : Interp} {i : Value}

/-- Whether side conditions are well-typed and say when something holds: where they are true it does,
and where it does they are true, if all array lengths are words. -/
structure Faithful (fits : Bounds) (I : Interp) (Γ : Scope) (checks : List Check)
    (defined : Valuation → Prop) : Prop where
  typed : ∀ c ∈ checks, c.cond.Typed fits Γ
  sound : ∀ ρ : Valuation, ρ.Fits Γ.vars → (∀ c ∈ checks, c.cond.Holds I ρ) → defined ρ
  complete : (∀ n, fits.lengths n → n < 2 ^ 31) → ∀ ρ : Valuation, ρ.Fits Γ.vars → defined ρ →
    ∀ c ∈ checks, c.cond.Holds I ρ

namespace Faithful

variable {cs ds : List Check} {C D : Valuation → Prop}

theorem nil (h : ∀ ρ, C ρ) : Faithful fits I Γ [] C :=
  ⟨by simp, fun ρ _ _ => h ρ, by simp⟩

theorem congr (h : Faithful fits I Γ cs C) (hCD : ∀ ρ : Valuation, ρ.Fits Γ.vars → (C ρ ↔ D ρ)) :
    Faithful fits I Γ cs D :=
  ⟨h.typed, fun ρ hρ hc => (hCD ρ hρ).mp (h.sound ρ hρ hc),
    fun hfits ρ hρ hd => h.complete hfits ρ hρ ((hCD ρ hρ).mpr hd)⟩

theorem append (hc : Faithful fits I Γ cs C) (hd : Faithful fits I Γ ds D) :
    Faithful fits I Γ (cs ++ ds) fun ρ => C ρ ∧ D ρ := by
  refine ⟨fun c h => ?_, fun ρ hρ h => ⟨?_, ?_⟩, fun hfits ρ hρ h c hmem => ?_⟩
  · rcases List.mem_append.mp h with h | h
    · exact hc.typed c h
    · exact hd.typed c h
  · exact hc.sound ρ hρ fun c hmem => h c (List.mem_append_left ds hmem)
  · exact hd.sound ρ hρ fun c hmem => h c (List.mem_append_right cs hmem)
  · rcases List.mem_append.mp hmem with hmem | hmem
    · exact hc.complete hfits ρ hρ h.1 c hmem
    · exact hd.complete hfits ρ hρ h.2 c hmem

/-- Side conditions that are needed only if a formula holds. -/
theorem guard {f : Formula} (hf : f.Typed fits Γ) (hd : Faithful fits I Γ ds D) (t : Term) :
    Faithful fits I Γ (ds.map (Check.guard f t)) fun ρ => f.Holds I ρ → D ρ := by
  refine ⟨fun c h => ?_, fun ρ hρ h hfρ => hd.sound ρ hρ fun c hmem => ?_,
    fun hfits ρ hρ h c hmem => ?_⟩
  · obtain ⟨d, hmem, rfl⟩ := List.mem_map.mp h
    exact hf.implies (hd.typed d hmem)
  · exact (Formula.holds_implies _ _).mp (h _ (List.mem_map_of_mem hmem)) hfρ
  · obtain ⟨d, hd', rfl⟩ := List.mem_map.mp hmem
    exact (Formula.holds_implies _ _).mpr fun hfρ => hd.complete hfits ρ hρ (h hfρ) d hd'

/-- Side conditions below a quantifier. -/
theorem close {x : String} {t : Ty} (hd : Faithful fits I (Γ.declare x t) ds D) (s : SmtSort) :
    Faithful fits I Γ (ds.map (Check.close x t s))
      fun ρ => ∀ v, t.Has v → D (Function.update ρ x v) := by
  refine ⟨fun c h => ?_, fun ρ hρ h v hv => hd.sound _ (hρ.update hv) fun c hmem => ?_,
    fun hfits ρ hρ h c hmem => ?_⟩
  · obtain ⟨d, hmem, rfl⟩ := List.mem_map.mp h
    exact hd.typed d hmem
  · exact h _ (List.mem_map_of_mem hmem) v hv
  · obtain ⟨d, hd', rfl⟩ := List.mem_map.mp hmem
    exact fun v hv => hd.complete hfits _ (hρ.update hv) (h v hv) d hd'

end Faithful

/-- A length as a word is at most the length. -/
theorem Int64.toInt_ofNat_le (n : ℕ) : (Int64.ofNat n).toInt ≤ n := by
  rw [Int64.toInt_ofNat', Int.bmod_def]
  norm_num
  split_ifs <;> omega

theorem Int32.toInt_ofNat_le (n : ℕ) : (Int32.ofNat n).toInt ≤ n := by
  rw [Int32.toInt_ofNat', Int.bmod_def]
  norm_num
  split_ifs <;> omega

variable {ρ : Valuation} {t : Term} {e : Expr} {n : ℕ}

theorem Value.Typed.eval_int {v : Value} (h : v.Typed fits Γ .i32) (hI : I.Regular Γ.functions)
    (hρ : ρ.Fits Γ.vars) : v.eval I ρ = .int (v.eval I ρ).toInt := by
  obtain ⟨n, hn⟩ := h.has_eval v hI hρ
  rw [hn, Val.toInt]

theorem Expr.Typed.eval_int (h : e.Typed fits Γ .i32) (hI : I.Regular Γ.functions) (hρ : ρ.Fits Γ.vars) :
    e.eval I ρ = .int (e.eval I ρ).toInt := by
  obtain ⟨n, hn⟩ := h.has_eval e hI hρ
  rw [hn, Val.toInt]

theorem Check.holds_index (hi : i.Typed fits Γ .i32) (hI : I.Regular Γ.functions)
    (hρ : ρ.Fits Γ.vars) :
    (Check.index i t n).cond.Holds I ρ ↔
      0 ≤ (i.eval I ρ).toInt ∧ (i.eval I ρ).toInt < (Int32.ofNat n).toInt := by
  have h := hi.eval_int hI hρ
  generalize hk : (i.eval I ρ).toInt = k at h ⊢
  simp [Check.index, Formula.holds_conj, Formula.Holds, Comparison.Holds, Expr.eval, h, Val.Le,
    Val.Lt]

theorem Check.typed_index (hi : i.Typed fits Γ .i32) : (Check.index i t n).cond.Typed fits Γ := by
  simp only [Check.index]
  refine Formula.typed_conj fun f hf => ?_
  rcases List.mem_pair.mp hf with rfl | rfl
  · exact ⟨.i32, .inr rfl, rfl, hi.toExpr⟩
  · exact ⟨.i32, .inr rfl, hi.toExpr, rfl⟩

theorem Check.holds_divisor (he : e.Typed fits Γ .i32) (hI : I.Regular Γ.functions) (hρ : ρ.Fits Γ.vars) :
    (Check.divisor e t).cond.Holds I ρ ↔ (e.eval I ρ).toInt ≠ 0 := by
  have h := he.eval_int hI hρ
  generalize hk : (e.eval I ρ).toInt = k at h ⊢
  simp [Check.divisor, Formula.notEqual, Formula.Holds, Expr.eval, h]

theorem Check.typed_divisor (he : e.Typed fits Γ .i32) : (Check.divisor e t).cond.Typed fits Γ :=
  ⟨.i32, .inr (.inl rfl), he, rfl⟩

namespace Encoding

variable {C : Valuation → Prop}

/-- An element of an array needs an index within it. -/
theorem faithful_elementChecks {index : Encoded} (hi : i.Typed fits Γ .i32) (hn : fits.lengths n)
    (hI : I.Regular Γ.functions) (hc : Faithful fits I Γ index.checks C) :
    Faithful fits I Γ (elementChecks i n index)
      fun ρ => C ρ ∧ 0 ≤ (i.eval I ρ).toInt ∧ (i.eval I ρ).toInt < n := by
  unfold elementChecks
  split_ifs with hin
  · -- The index is known to be within the array.
    refine hc.congr fun ρ _ => (and_iff_left ?_).symm
    have hle := Int64.toInt_ofNat_le n
    generalize (Int64.ofNat n).toInt = w at hin hle
    cases hk : i.constantIndex? with
    | none => simp [hk] at hin
    | some k =>
      have hlt : (k : ℤ) < w := by simpa [hk] using hin
      rw [Value.eval_of_constantIndex hk, Val.toInt]
      omega
  · refine hc.append ⟨?_, fun ρ hρ hall => ?_, fun hfits ρ hρ hd => ?_⟩
    · intro c hmem
      obtain rfl := List.mem_singleton.mp hmem
      exact Check.typed_index hi
    · have h := (Check.holds_index hi hI hρ).mp (hall _ (List.mem_singleton_self _))
      have hle := Int32.toInt_ofNat_le n
      omega
    · intro c hmem
      obtain rfl := List.mem_singleton.mp hmem
      have hword : (Int32.ofNat n).toInt = n := Int32.toInt_ofNat_of_lt (hfits n hn)
      rw [Check.holds_index hi hI hρ, hword]
      exact hd

theorem faithful_operationChecks {o : Operator} (t : Term) (he : e.Typed fits Γ .i32)
    (hI : I.Regular Γ.functions) :
    Faithful fits I Γ (operationChecks o e t) fun ρ => o.Allows (e.eval I ρ).toInt := by
  have hdivisor : Faithful fits I Γ [Check.divisor e t] fun ρ => (e.eval I ρ).toInt ≠ 0 := by
    refine ⟨?_, fun ρ hρ hall => ?_, fun _ ρ hρ hd => ?_⟩
    · intro c hmem
      obtain rfl := List.mem_singleton.mp hmem
      exact Check.typed_divisor he
    · exact (Check.holds_divisor he hI hρ).mp (hall _ (List.mem_singleton_self _))
    · intro c hmem
      obtain rfl := List.mem_singleton.mp hmem
      exact (Check.holds_divisor he hI hρ).mpr hd
  have hliteral : ∀ k : Int32, e = .num k → k ≠ 0 → ∀ ρ, (e.eval I ρ).toInt ≠ 0 := by
    rintro k rfl hk ρ h0
    exact hk (Int32.toInt_inj.mp (by simpa [Expr.eval, Val.toInt] using h0))
  unfold operationChecks
  cases o with
  | add | sub | mul => exact .nil fun ρ => trivial
  | div | rem =>
    cases e with
    | num k =>
      dsimp only
      split_ifs with hk
      · exact hdivisor
      · exact .nil (hliteral k rfl hk)
    | value _ | op _ _ _ => exact hdivisor

theorem faithful_branchChecks {c : Formula} {r : Encoded} {ts es : List Check}
    {T E : Valuation → Prop} (hf : c.Typed fits Γ) (hc : Faithful fits I Γ r.checks C)
    (ht : Faithful fits I Γ ts T) (he : Faithful fits I Γ es E) :
    Faithful fits I Γ (branchChecks c r ts es)
      fun ρ => C ρ ∧ (c.Holds I ρ → T ρ) ∧ (¬ c.Holds I ρ → E ρ) := by
  refine ((hc.append (ht.guard hf r.term)).append (he.guard hf.negate r.term.not)).congr ?_
  intro ρ _
  rw [Formula.holds_negate, and_assoc]

end Encoding

theorem Ty.Has.inRange_iff {t : Ty} {v : Val} (h : (Ty.array t n).Has v) (i : ℤ) :
    v.InRange i ↔ 0 ≤ i ∧ i < n := by
  obtain ⟨f, rfl, -⟩ := h
  rfl

/-! ### The side conditions of nodes -/

namespace Encoding

/-- Whether the environment of an encoding knows a scope. -/
structure Env.Knows (env : Env) (Γ : Scope) : Prop where
  vars : ∀ x t, Γ.type? x = some t → env.scope.type? x = some t
  functions : ∀ f g, Γ.function? f = some g → env.scope.function? f = some g

theorem Env.Knows.bind {env : Env} (h : env.Knows Γ) (x : String) (t : Ty) :
    (env.bind x t).Knows (Γ.declare x t) := by
  refine ⟨fun y u hy => ?_, h.functions⟩
  change (env.scope.declare x t).type? y = some u
  rw [Scope.type?_declare] at hy ⊢
  split_ifs at hy ⊢
  · exact hy
  · exact h.vars y u hy

theorem Env.Knows.extends {env : Env} (h : env.Knows Γ) (xs : Names) : Γ.ExtendsOn env.scope xs :=
  ⟨fun x _ t ht => ⟨t, h.vars x t ht, rfl⟩, h.functions⟩

mutual

theorem faithful_place {Γ t p env d d' r} (h : RunPlace env p d r d') (hΓ : env.Knows Γ)
    (ht : p.Typed fits Γ t) (hI : I.Regular Γ.functions) :
    Faithful fits I Γ r.checks fun ρ => p.Defined I ρ := by
  cases h with
  | name => exact .nil fun ρ => trivial
  | array hu' hue' _ _ hi' =>
    obtain ⟨u, n, hu, hb, hn, hi⟩ := ht
    obtain ⟨e, hue, he⟩ := Ty.bare_eq_array hb
    obtain rfl := Option.mem_unique (hΓ.vars _ u hu) hu'
    obtain ⟨rfl, rfl⟩ := Ty.array.inj (hue.symm.trans hue')
    refine (faithful_elementChecks hi hn hI (faithful_value hi' hΓ hi hI)).congr ?_
    intro ρ hρ
    have hx := (Ty.has_bare u _).mpr (hρ _ u hu)
    rw [hb] at hx
    simp only [Place.Defined, hx.inRange_iff]
  | tuple _ _ _ hn => exact .nil fun ρ => Value.defined_of_constantIndex hn

/-- The side conditions of a value say when it is well-defined. -/
theorem faithful_value {Γ t v env d d' r} (h : RunValue env v d r d') (hΓ : env.Knows Γ)
    (ht : v.Typed fits Γ t) (hI : I.Regular Γ.functions) :
    Faithful fits I Γ r.checks fun ρ => v.Defined I ρ := by
  cases h with
  | expr he => exact faithful_expr he hΓ ht.2 hI
  | formula hf => exact faithful_formula hf hΓ ht.2 hI
  | place hp => exact faithful_place hp hΓ ht hI
  | array hv hvs =>
    obtain ⟨u, -, -, u', us, -, hv', hvs'⟩ := ht
    exact faithful_elements hvs hΓ hvs' hI (faithful_value hv hΓ hv' hI :)
  | call _ _ has =>
    obtain ⟨g, -, -, hvs⟩ := ht
    exact faithful_args has hΓ hvs hI
  | ref hv | deref hv => exact (faithful_value hv hΓ ht hI :)
  | ite hc hv hw =>
    exact faithful_branchChecks ht.1 (faithful_formula hc hΓ ht.1 hI)
      (faithful_value hv hΓ ht.2.1 hI) (faithful_value hw hΓ ht.2.2 hI)
  | element hb' =>
    obtain ⟨ts, n, hb, hn, -⟩ := ht
    refine (faithful_tuple hb' hΓ hb hI).congr fun ρ _ => ?_
    simp only [Value.Defined, Value.defined_of_constantIndex hn, and_true]
  | select hu' hue' hb' hi' =>
    obtain ⟨n, hb, hn, hi⟩ := ht
    obtain ⟨u, hu, hbu⟩ := (hb.extend _ (hΓ.extends _)).typeOf _
    obtain ⟨e, hue, he⟩ := Ty.bare_eq_array hbu
    obtain rfl := ok_unique hu hu'
    obtain ⟨rfl, rfl⟩ := Ty.array.inj (hue.symm.trans hue')
    refine ((faithful_value hb' hΓ hb hI).append
      (faithful_elementChecks hi hn hI (faithful_value hi' hΓ hi hI))).congr ?_
    intro ρ hρ
    simp only [Value.Defined, (hb.has_eval _ hI hρ).inRange_iff]
  | store hb' hi' _ he' =>
    obtain ⟨u, n, -, hb, hi, he⟩ := ht
    refine (((faithful_value hb' hΓ hb hI).append (faithful_value hi' hΓ hi hI)).append
      (faithful_value he' hΓ he hI)).congr fun ρ _ => ?_
    simp only [Value.Defined, and_assoc]

theorem faithful_elements {C : Valuation → Prop} {Γ ts vs env array r s i d d'}
    (h : RunElements env array s i vs d r d') (hΓ : env.Knows Γ) (ht : Value.AllTyped fits Γ vs ts)
    (hI : I.Regular Γ.functions) (hC : Faithful fits I Γ array.checks C) :
    Faithful fits I Γ r.checks fun ρ => C ρ ∧ Value.AllDefined I ρ vs := by
  cases h with
  | nil => exact hC.congr fun ρ _ => (and_iff_left trivial).symm
  | cons hv' _ hvs' =>
    obtain ⟨u, us, -, hv, hvs⟩ := ht
    refine (faithful_elements hvs' hΓ hvs hI (hC.append (faithful_value hv' hΓ hv hI))).congr ?_
    intro ρ _
    simp only [Value.AllDefined, and_assoc]

theorem faithful_args {Γ ts vs env d d' r} (h : RunArgs env vs d r d') (hΓ : env.Knows Γ)
    (ht : Value.AllTyped fits Γ vs ts) (hI : I.Regular Γ.functions) :
    Faithful fits I Γ r.checks fun ρ => Value.AllDefined I ρ vs := by
  cases h with
  | nil => exact .nil fun ρ => trivial
  | tuple _ _ hv' hvs' =>
    obtain ⟨u, us, -, hv, hvs⟩ := ht
    exact (faithful_tuple hv' hΓ hv hI).append (faithful_args hvs' hΓ hvs hI)
  | value _ _ hv' hvs' =>
    obtain ⟨u, us, -, hv, hvs⟩ := ht
    exact (faithful_value hv' hΓ hv hI).append (faithful_args hvs' hΓ hvs hI)

theorem faithful_tuple {Γ t v env d d' r} (h : RunTuple env v d r d') (hΓ : env.Knows Γ)
    (ht : v.Typed fits Γ t) (hI : I.Regular Γ.functions) :
    Faithful fits I Γ r.checks fun ρ => v.Defined I ρ := by
  cases h with
  | name => exact .nil fun ρ => trivial
  | literal _ _ hvs' =>
    obtain ⟨ts, -, -, hvs⟩ := ht
    refine (faithful_literal hvs' hΓ hvs hI (C := fun _ => True) (.nil fun _ => trivial)).congr ?_
    exact fun ρ _ => and_iff_right trivial
  | ref _ _ hv | deref _ _ hv => exact (faithful_tuple hv hΓ ht hI :)
  | ite _ _ hc hv hw =>
    exact faithful_branchChecks ht.1 (faithful_formula hc hΓ ht.1 hI)
      (faithful_tuple hv hΓ ht.2.1 hI) (faithful_tuple hw hΓ ht.2.2 hI)
  | @store _ s b i e _ _ _ _ _ _ _ _ _ hu' hue' hb' _ _ he' =>
    cases s with
    | array =>
      -- A tuple is not an array.
      obtain ⟨u, n, rfl, hb, -, -⟩ := ht
      obtain ⟨w, hw, hbw⟩ := (hb.extend b (hΓ.extends _)).typeOf b
      obtain ⟨e', hwe, -⟩ := Ty.bare_eq_array hbw
      obtain rfl := ok_unique hw hu'
      cases hwe.symm.trans hue'
    | tuple =>
      obtain ⟨ts, n, u, -, hb, hn, -, he⟩ := ht
      refine ((faithful_tuple hb' hΓ hb hI).append (faithful_value he' hΓ he hI)).congr fun ρ _ => ?_
      simp only [Value.Defined, Value.defined_of_constantIndex hn, true_and]
  | call _ _ has =>
    obtain ⟨g, -, -, hvs⟩ := ht
    exact faithful_args has hΓ hvs hI

theorem faithful_literal {C : Valuation → Prop} {Γ ts vs env cs parts i d d' r}
    (h : RunLiteral env cs parts i vs d r d') (hΓ : env.Knows Γ) (ht : Value.AllTyped fits Γ vs ts)
    (hI : I.Regular Γ.functions) (hC : Faithful fits I Γ cs C) :
    Faithful fits I Γ r.1 fun ρ => C ρ ∧ Value.AllDefined I ρ vs := by
  cases h with
  | nil => exact hC.congr fun ρ _ => (and_iff_left trivial).symm
  | cons hv' hvs' =>
    obtain ⟨u, us, -, hv, hvs⟩ := ht
    refine (faithful_literal hvs' hΓ hvs hI (hC.append (faithful_value hv' hΓ hv hI))).congr ?_
    intro ρ _
    simp only [Value.AllDefined, and_assoc]

theorem faithful_expr {Γ t e env d d' r} (h : RunExpr env e d r d') (hΓ : env.Knows Γ)
    (ht : e.Typed fits Γ t) (hI : I.Regular Γ.functions) :
    Faithful fits I Γ r.checks fun ρ => e.Defined I ρ := by
  cases h with
  | num => exact .nil fun ρ => trivial
  | value hv => exact faithful_value hv hΓ ht hI
  | op ha' _ hb' =>
    obtain ⟨-, ha, hb⟩ := ht
    refine (((faithful_expr ha' hΓ ha hI).append (faithful_expr hb' hΓ hb hI)).append
      (faithful_operationChecks _ hb hI)).congr fun ρ _ => ?_
    simp only [Expr.Defined, and_assoc]

/-- The side conditions of a formula say when it is well-defined. -/
theorem faithful_formula {Γ : Scope} {f env d d' r} (h : RunFormula env f d r d') (hΓ : env.Knows Γ)
    (ht : f.Typed fits Γ) (hI : I.Regular Γ.functions) :
    Faithful fits I Γ r.checks fun ρ => f.Defined I ρ := by
  cases h with
  | lit => exact .nil fun ρ => trivial
  | and hf hg =>
    exact (faithful_formula hf hΓ ht.1 hI).append ((faithful_formula hg hΓ ht.2 hI).guard ht.1 _)
  | or hf hg =>
    refine ((faithful_formula hf hΓ ht.1 hI).append
      ((faithful_formula hg hΓ ht.2 hI).guard ht.1.negate _)).congr fun ρ _ => ?_
    simp only [Formula.Defined, Formula.holds_negate]
  | not hf => exact (faithful_formula hf hΓ ht hI :)
  | value hv => exact faithful_value hv hΓ ht hI
  | equal ha' hb' | compare ha' hb' =>
    obtain ⟨t, -, ha, hb⟩ := ht
    exact (faithful_expr ha' hΓ ha hI).append (faithful_expr hb' hΓ hb hI)
  | quant _ hf => exact (faithful_formula hf (hΓ.bind _ _) ht hI).close _

end

end Encoding

end Verdict
