import Verdict.Proofs.Extensionality
import Verdict.Proofs.Models

/-! # Side conditions are exact

A side condition is kept as a formula and as a term. The two are true together: the formula can be encoded,
and its encoding is true in the same models as the term (`Check.Agrees`, proved of all side conditions of a
node). As formulas, the side conditions are all true exactly where the node is well-defined
(`Encoding.checks_exact`). Both need array lengths that are words: the formula has the length as a word of
32 bits, and the term as one of 64 bits. -/

namespace Verdict

namespace Term

variable {M : SmtModel}

theorem holds_lit (b : Bool) : (lit b).Holds M ↔ b = true := by simp [Holds, Datum.isTrue]

theorem holds_not (t : Term) : t.not.Holds M ↔ ¬ t.Holds M := by
  unfold not
  split
  · next b => cases b <;> simp [holds_lit]
  · simp [Holds, Datum.isTrue]

theorem holds_implies (a b : Term) : (a.implies b).Holds M ↔ (a.Holds M → b.Holds M) := by
  unfold implies
  split_ifs with h
  · rw [eq_lit_of_isLit h]
    simp [holds_lit]
  · simp [Holds, Datum.isTrue, imp_iff_not_or]

theorem holds_and (a b : Term) : (and [a, b]).Holds M ↔ a.Holds M ∧ b.Holds M := by
  refine join_pair (P := fun t => t.Holds M ↔ a.Holds M ∧ b.Holds M) ?_ (fun h => ?_) fun h => ?_
  · simp [Holds, Datum.isTrue]
  · simp [h, holds_lit]
  · simp [h, holds_lit]

theorem holds_or (a b : Term) : (or [a, b]).Holds M ↔ a.Holds M ∨ b.Holds M := by
  refine join_pair (P := fun t => t.Holds M ↔ a.Holds M ∨ b.Holds M) ?_ (fun h => ?_) fun h => ?_
  · simp [Holds, Datum.isTrue]
  · simp [h, holds_lit]
  · simp [h, holds_lit]

end Term

/-- Whether all elements of an array that may be accessed have an index. -/
def Bounds.Indexable (fits : Bounds) : Prop := ∀ n, fits.lengths n → n < 2 ^ 31

namespace Encoding

variable {env : Env} {d d' : Declarations}

/-! ### What formulas are encoded as -/

/-- Whether a formula can be encoded, by a term that is true in the models with a property. -/
def Encodes (env : Env) (f : Formula) (p : SmtModel → Prop) : Prop :=
  ∃ r, Yields (formula env f) r ∧ ∀ M, r.term.Holds M ↔ p M

variable {r : Encoded} {n : ℕ}

theorem RunFormula.encodes {f : Formula} (h : RunFormula env f d r d') :
    Encodes env f fun M => r.term.Holds M := ⟨r, (always_formula h).yields, fun _ => Iff.rfl⟩

namespace Encodes

variable {f g : Formula} {p q : SmtModel → Prop}

theorem congr (h : Encodes env f p) (hpq : ∀ M, p M ↔ q M) : Encodes env f q := by
  obtain ⟨r, hr, hp⟩ := h
  exact ⟨r, hr, fun M => (hp M).trans (hpq M)⟩

/-- A formula is encoded after any declarations. -/
theorem run (h : Encodes env f p) (d : Declarations) :
    ∃ r d', RunFormula env f d r d' ∧ ∀ M, r.term.Holds M ↔ p M := by
  obtain ⟨r, ⟨d₁, d₂, hr⟩, hp⟩ := h
  obtain ⟨d', hr⟩ := always_formula (runs_formula hr) d
  exact ⟨r, d', runs_formula hr, hp⟩

theorem lit (b : Bool) : Encodes env (.lit b) fun _ => b = true :=
  (RunFormula.lit (d := default)).encodes.congr fun _ => Term.holds_lit b

theorem iff_of_lit {b : Bool} (h : Encodes env (.lit b) p) (M : SmtModel) : p M ↔ b = true := by
  obtain ⟨r, d', hr, hp⟩ := h.run default
  cases hr
  exact (hp M).symm.trans (Term.holds_lit b)

theorem not (h : Encodes env f p) : Encodes env (.not f) fun M => ¬ p M := by
  obtain ⟨r, d', hr, hp⟩ := h.run default
  exact hr.not.encodes.congr fun M => (Term.holds_not _).trans (hp M).not

theorem negate (h : Encodes env f p) : Encodes env f.negate fun M => ¬ p M := by
  unfold Formula.negate
  split
  · next b =>
    refine (lit (!b)).congr fun M => ?_
    rw [h.iff_of_lit M]
    simp
  · next g =>
    obtain ⟨r, d', hr, hp⟩ := h.run default
    cases hr with
    | not hg =>
      exact hg.encodes.congr fun M => (not_iff_comm.mp ((Term.holds_not _).symm.trans (hp M))).symm
  · exact h.not

theorem and (hf : Encodes env f p) (hg : Encodes env g q) :
    Encodes env (.and f g) fun M => p M ∧ q M := by
  obtain ⟨rf, d₁, hrf, hp⟩ := hf.run default
  obtain ⟨rg, d₂, hrg, hq⟩ := hg.run d₁
  exact (hrf.and hrg).encodes.congr fun M => (Term.holds_and _ _).trans (and_congr (hp M) (hq M))

theorem or (hf : Encodes env f p) (hg : Encodes env g q) :
    Encodes env (.or f g) fun M => p M ∨ q M := by
  obtain ⟨rf, d₁, hrf, hp⟩ := hf.run default
  obtain ⟨rg, d₂, hrg, hq⟩ := hg.run d₁
  exact (hrf.or hrg).encodes.congr fun M => (Term.holds_or _ _).trans (or_congr (hp M) (hq M))

/-- Literal falsehoods are left out of a disjunction. -/
theorem disj (hf : Encodes env f p) (hg : Encodes env g q) :
    Encodes env (Formula.disj [f, g]) fun M => p M ∨ q M := by
  have hfalse : ∀ {f : Formula} {p : SmtModel → Prop}, Encodes env f p → f.isFalse = true →
      ∀ M, ¬ p M := by
    intro f p h hf M
    cases f <;> simp only [Formula.isFalse, Bool.not_eq_true', reduceCtorEq] at hf
    rw [h.iff_of_lit M, hf]
    simp
  rw [Formula.disj_pair]
  split_ifs with hff hgf hgf
  · refine (lit false).congr fun M => ?_
    simp [hfalse hf hff M, hfalse hg hgf M]
  · exact hg.congr fun M => (or_iff_right (hfalse hf hff M)).symm
  · exact hf.congr fun M => (or_iff_left (hfalse hg hgf M)).symm
  · exact hf.or hg

theorem implies (hf : Encodes env f p) (hg : Encodes env g q) :
    Encodes env (f.implies g) fun M => p M → q M := by
  unfold Formula.implies
  split_ifs with h
  · refine hg.congr fun M => ?_
    cases f <;> simp only [Formula.isTrue, Bool.false_eq_true] at h
    rw [hf.iff_of_lit M, h]
    simp
  · exact (hf.negate.disj hg).congr fun M => imp_iff_not_or.symm

theorem all {x : String} {t : Ty} {s : SmtSort} (ht : t.sortOf = .ok s)
    (h : Encodes (env.bind x t) f p) :
    Encodes env (.quant .all x t f) fun M => ∀ d, s.Has d → p (M.bind x d) := by
  obtain ⟨r, d', hr, hp⟩ := h.run default
  refine (RunFormula.quant ht hr).encodes.congr fun M => ?_
  rw [Term.holds_all]
  exact forall_congr' fun d => imp_congr_right fun _ => hp _

end Encodes

/-! ### Side conditions that agree with their terms -/

/-- Whether the formula of a side condition can be encoded, and its encoding is true where the term is. -/
def Agrees (env : Env) (c : Check) : Prop := Encodes env c.cond fun M => c.term.Holds M

/-- Whether all of some side conditions agree with their terms. -/
def AllAgree (env : Env) (cs : List Check) : Prop := ∀ c ∈ cs, Agrees env c

namespace AllAgree

variable {cs ds : List Check}

theorem nil : AllAgree env [] := fun _ h => absurd h List.not_mem_nil

theorem append (hc : AllAgree env cs) (hd : AllAgree env ds) : AllAgree env (cs ++ ds) :=
  fun c h => (List.mem_append.mp h).elim (hc c) (hd c)

theorem singleton {c : Check} (h : Agrees env c) : AllAgree env [c] :=
  fun _ hd => List.mem_singleton.mp hd ▸ h

theorem guard {f : Formula} {t : Term} (hf : Encodes env f fun M => t.Holds M)
    (hd : AllAgree env ds) : AllAgree env (ds.map (Check.guard f t)) := by
  intro c hmem
  obtain ⟨d, hd', rfl⟩ := List.mem_map.mp hmem
  exact (hf.implies (hd d hd')).congr fun M => (Term.holds_implies _ _).symm

theorem close {x : String} {t : Ty} {s : SmtSort} (ht : t.sortOf = .ok s)
    (hd : AllAgree (env.bind x t) ds) : AllAgree env (ds.map (Check.close x t s)) := by
  intro c hmem
  obtain ⟨d, hd', rfl⟩ := List.mem_map.mp hmem
  exact ((hd d hd').all ht).congr fun M => Term.holds_all.symm

theorem branch {c : Formula} {ts es : List Check} (hr : RunFormula env c d r d')
    (hc : AllAgree env r.checks) (ht : AllAgree env ts) (he : AllAgree env es) :
    AllAgree env (branchChecks c r ts es) := by
  have helse : Encodes env c.negate fun M => r.term.not.Holds M :=
    hr.encodes.negate.congr fun M => (Term.holds_not _).symm
  exact (hc.append (ht.guard hr.encodes)).append (he.guard helse)

end AllAgree

theorem encodes_compare {c : Comparison} {b : Expr} {rb : Encoded} {a ra d₁}
    (ha : RunExpr env a d ra d₁) (hb : RunExpr env b d₁ rb d') (has : ra.sort = .int)
    (hbs : rb.sort = .int) :
    Encodes env (.compare c a b) fun M => (Term.app c.print [ra.term, rb.term]).Holds M :=
  (RunFormula.compare ha hb (has.trans hbs.symm) (by rw [has]; rfl)).encodes

theorem agrees_divisor {e : Expr} (he : RunExpr env e d r d') (hint : r.sort = .int) :
    Agrees env (Check.divisor e r.term) :=
  (RunFormula.equal he .num hint).encodes.not.congr fun _ => (Term.holds_not _).symm

theorem allAgree_operationChecks {o : Operator} {e : Expr} (he : RunExpr env e d r d') (hint : r.sort = .int) :
    AllAgree env (operationChecks o e r.term) := by
  have hdivisor := AllAgree.singleton (agrees_divisor he hint)
  unfold operationChecks
  cases o with
  | add | sub | mul => exact .nil
  | div | rem =>
    cases e with
    | num k =>
      dsimp only
      split_ifs
      · exact hdivisor
      · exact .nil
    | value _ | op _ _ _ => exact hdivisor

/-- A value as an expression is encoded as the value is. -/
theorem RunValue.toExpr {v : Value} (h : RunValue env v d r d') : RunExpr env v.toExpr d r d' := by
  cases h with
  | expr he => exact he
  | formula hf => exact .value (.formula hf)
  | place hp => exact .value (.place hp)
  | array hv hvs => exact .value (.array hv hvs)
  | call hg hs has hd => exact .value (.call hg hs has hd)
  | ref hv => exact .value (.ref hv)
  | deref hv => exact .value (.deref hv)
  | ite hc hv hw hsort => exact .value (.ite hc hv hw hsort)
  | element hb hn he hs => exact .value (.element hb hn he hs)
  | select ht he hb hi hint hs => exact .value (.select ht he hb hi hint hs)
  | store hb hi hint he => exact .value (.store hb hi hint he)

theorem Int64.ofInt_toInt32 (h : n < 2 ^ 31) : Int64.ofInt (Int32.ofNat n).toInt = Int64.ofNat n := by
  rw [Int32.toInt_ofNat_of_lt h]
  exact Int64.ofInt_eq_ofNat

theorem agrees_index {i : Value} (hi : RunValue env i d r d') (hs : r.sort = .int) (hn : n < 2 ^ 31) :
    Agrees env (Check.index i r.term n) := by
  have hbound : RunExpr env (.num (Int32.ofNat n)) d' ⟨[], .int (Int64.ofNat n), .int⟩ d' := by
    rw [← Int64.ofInt_toInt32 hn]
    exact .num
  have hle := encodes_compare (c := .le) (.num (n := 0)) hi.toExpr rfl hs
  have hlt := encodes_compare (c := .lt) hi.toExpr hbound hs rfl
  exact (hle.and hlt).congr fun M => (Term.holds_and _ _).symm

theorem allAgree_elementChecks {i index} (hi : RunValue env i d index d') (hs : index.sort = .int)
    (hn : n < 2 ^ 31) (hc : AllAgree env index.checks) :
    AllAgree env (elementChecks i n index) := by
  unfold elementChecks
  split_ifs
  · exact hc
  · exact hc.append (.singleton (agrees_index hi hs hn))

/-! ### The side conditions of nodes -/

section Agreement

variable {fits : Bounds}

mutual

theorem allAgree_place (hfits : fits.Indexable) {Γ t p env d d' r} (h : RunPlace env p d r d')
    (hΓ : env.Knows Γ) (ht : p.Typed fits Γ t) : AllAgree env r.checks := by
  cases h with
  | name | tuple => exact .nil
  | array hu' hue' _ _ hi' hint =>
    obtain ⟨u, n, hu, hb, hn, hi⟩ := ht
    obtain ⟨e, hue, he⟩ := Ty.bare_eq_array hb
    obtain rfl := Option.mem_unique (hΓ.vars _ u hu) hu'
    obtain ⟨rfl, rfl⟩ := Ty.array.inj (hue.symm.trans hue')
    exact allAgree_elementChecks hi' hint (hfits n hn) (allAgree_value hfits hi' hΓ hi)

theorem allAgree_value (hfits : fits.Indexable) {Γ t v env d d' r} (h : RunValue env v d r d')
    (hΓ : env.Knows Γ) (ht : v.Typed fits Γ t) : AllAgree env r.checks := by
  cases h with
  | expr he => exact allAgree_expr hfits he hΓ ht.2
  | formula hf => exact allAgree_formula hfits hf hΓ ht.2
  | place hp => exact allAgree_place hfits hp hΓ ht
  | array hv hvs =>
    obtain ⟨u, -, -, u', us, -, hv', hvs'⟩ := ht
    exact allAgree_elements hfits hvs hΓ hvs' (allAgree_value hfits hv hΓ hv' :)
  | call _ _ has =>
    obtain ⟨g, -, -, hvs⟩ := ht
    exact allAgree_args hfits has hΓ hvs
  | ref hv | deref hv => exact allAgree_value hfits hv hΓ ht
  | ite hc hv hw =>
    exact .branch hc (allAgree_formula hfits hc hΓ ht.1) (allAgree_value hfits hv hΓ ht.2.1)
      (allAgree_value hfits hw hΓ ht.2.2)
  | element hb' =>
    obtain ⟨ts, n, hb, -⟩ := ht
    exact (allAgree_tuple hfits hb' hΓ hb :)
  | select hu' hue' hb' hi' hint =>
    obtain ⟨n, hb, hn, hi⟩ := ht
    obtain ⟨u, hu, hbu⟩ := (hb.extend _ (hΓ.extends _)).typeOf _
    obtain ⟨e, hue, he⟩ := Ty.bare_eq_array hbu
    obtain rfl := ok_unique hu hu'
    obtain ⟨rfl, rfl⟩ := Ty.array.inj (hue.symm.trans hue')
    exact (allAgree_value hfits hb' hΓ hb).append
      (allAgree_elementChecks hi' hint (hfits n hn) (allAgree_value hfits hi' hΓ hi))
  | store hb' hi' _ he' =>
    obtain ⟨u, n, -, hb, hi, he⟩ := ht
    exact ((allAgree_value hfits hb' hΓ hb).append (allAgree_value hfits hi' hΓ hi)).append
      (allAgree_value hfits he' hΓ he)

theorem allAgree_elements (hfits : fits.Indexable) {Γ ts vs env array r s i d d'}
    (h : RunElements env array s i vs d r d') (hΓ : env.Knows Γ) (ht : Value.AllTyped fits Γ vs ts)
    (hC : AllAgree env array.checks) : AllAgree env r.checks := by
  cases h with
  | nil => exact hC
  | cons hv' _ hvs' =>
    obtain ⟨u, us, -, hv, hvs⟩ := ht
    exact allAgree_elements hfits hvs' hΓ hvs (hC.append (allAgree_value hfits hv' hΓ hv))

theorem allAgree_args (hfits : fits.Indexable) {Γ ts vs env d d' r} (h : RunArgs env vs d r d')
    (hΓ : env.Knows Γ) (ht : Value.AllTyped fits Γ vs ts) : AllAgree env r.checks := by
  cases h with
  | nil => exact .nil
  | tuple _ _ hv' hvs' =>
    obtain ⟨u, us, -, hv, hvs⟩ := ht
    exact (allAgree_tuple hfits hv' hΓ hv).append (allAgree_args hfits hvs' hΓ hvs)
  | value _ _ hv' hvs' =>
    obtain ⟨u, us, -, hv, hvs⟩ := ht
    exact (allAgree_value hfits hv' hΓ hv).append (allAgree_args hfits hvs' hΓ hvs)

theorem allAgree_tuple (hfits : fits.Indexable) {Γ t v env d d' r} (h : RunTuple env v d r d')
    (hΓ : env.Knows Γ) (ht : v.Typed fits Γ t) : AllAgree env r.checks := by
  cases h with
  | name => exact .nil
  | literal _ _ hvs' =>
    obtain ⟨ts, -, -, hvs⟩ := ht
    exact allAgree_literal hfits hvs' hΓ hvs .nil
  | ref _ _ hv | deref _ _ hv => exact allAgree_tuple hfits hv hΓ ht
  | ite _ _ hc hv hw =>
    exact .branch hc (allAgree_formula hfits hc hΓ ht.1) (allAgree_tuple hfits hv hΓ ht.2.1)
      (allAgree_tuple hfits hw hΓ ht.2.2)
  | @store _ shape b _ e _ _ _ _ _ _ _ _ _ _ _ hb' _ _ he' =>
    have hparts : (∃ u, b.Typed fits Γ u) ∧ ∃ u, e.Typed fits Γ u := by
      cases shape with
      | array =>
        obtain ⟨u, n, -, hb, -, he⟩ := ht
        exact ⟨⟨_, hb⟩, ⟨_, he⟩⟩
      | tuple =>
        obtain ⟨ts, n, u, -, hb, -, -, he⟩ := ht
        exact ⟨⟨_, hb⟩, ⟨_, he⟩⟩
    obtain ⟨⟨_, hb⟩, ⟨_, he⟩⟩ := hparts
    exact (allAgree_tuple hfits hb' hΓ hb).append (allAgree_value hfits he' hΓ he)
  | call _ _ has =>
    obtain ⟨g, -, -, hvs⟩ := ht
    exact allAgree_args hfits has hΓ hvs

theorem allAgree_literal (hfits : fits.Indexable) {Γ ts vs env cs parts i d d' r}
    (h : RunLiteral env cs parts i vs d r d') (hΓ : env.Knows Γ) (ht : Value.AllTyped fits Γ vs ts)
    (hC : AllAgree env cs) : AllAgree env r.1 := by
  cases h with
  | nil => exact hC
  | cons hv' hvs' =>
    obtain ⟨u, us, -, hv, hvs⟩ := ht
    exact allAgree_literal hfits hvs' hΓ hvs (hC.append (allAgree_value hfits hv' hΓ hv))

theorem allAgree_expr (hfits : fits.Indexable) {Γ t e env d d' r} (h : RunExpr env e d r d')
    (hΓ : env.Knows Γ) (ht : e.Typed fits Γ t) : AllAgree env r.checks := by
  cases h with
  | num => exact .nil
  | value hv => exact allAgree_value hfits hv hΓ ht
  | op ha' _ hb' hint =>
    obtain ⟨-, ha, hb⟩ := ht
    exact ((allAgree_expr hfits ha' hΓ ha).append (allAgree_expr hfits hb' hΓ hb)).append
      (allAgree_operationChecks hb' hint)

theorem allAgree_formula (hfits : fits.Indexable) {Γ : Scope} {f env d d' r}
    (h : RunFormula env f d r d') (hΓ : env.Knows Γ) (ht : f.Typed fits Γ) : AllAgree env r.checks := by
  cases h with
  | lit => exact .nil
  | and hf hg =>
    exact (allAgree_formula hfits hf hΓ ht.1).append ((allAgree_formula hfits hg hΓ ht.2).guard hf.encodes)
  | or hf hg =>
    have hnot := hf.encodes.negate.congr fun M => (Term.holds_not _).symm
    exact (allAgree_formula hfits hf hΓ ht.1).append ((allAgree_formula hfits hg hΓ ht.2).guard hnot)
  | not hf => exact (allAgree_formula hfits hf hΓ ht :)
  | value hv => exact allAgree_value hfits hv hΓ ht
  | equal ha' hb' | compare ha' hb' =>
    obtain ⟨t, -, ha, hb⟩ := ht
    exact (allAgree_expr hfits ha' hΓ ha).append (allAgree_expr hfits hb' hΓ hb)
  | quant hs hf => exact (allAgree_formula hfits hf (hΓ.bind _ _) ht).close hs

end

end Agreement

/-- Whether side conditions are all true exactly where something is well-defined, and the formula of each
can be encoded, whatever has been declared, by a term that is true in the same models as its own. -/
structure ExactChecks (I : Interp) (Γ : Scope) (cs : List Check) (defined : Valuation → Prop) : Prop where
  cond : ∀ ρ : Valuation, ρ.Fits Γ.vars → ((∀ c ∈ cs, c.cond.Holds I ρ) ↔ defined ρ)
  term : ∀ c ∈ cs, ∀ d, ∃ r d', (formula (.ofScope Γ) c.cond).run.run d = (.ok r, d') ∧
    ∀ M, c.term.Holds M ↔ r.term.Holds M

theorem knows_ofScope (Γ : Scope) : (Env.ofScope Γ).Knows Γ := ⟨fun _ _ h => h, fun _ _ h => h⟩

theorem exactChecks_of_faithful {fits : Bounds} (hfits : ∀ n, fits.lengths n → n < 2 ^ 31) {I : Interp}
    {Γ : Scope} {cs : List Check} {defined : Valuation → Prop} (h : Faithful fits I Γ cs defined)
    (hcs : AllAgree (.ofScope Γ) cs) : ExactChecks I Γ cs defined := by
  refine ⟨fun ρ hρ => ⟨h.sound ρ hρ, h.complete hfits ρ hρ⟩, fun c hc d => ?_⟩
  obtain ⟨r, ⟨d₁, d₂, hr⟩, hterm⟩ := hcs c hc
  obtain ⟨d', hd'⟩ := always_formula (runs_formula hr) d
  exact ⟨r, d', hd', fun M => (hterm M).symm⟩

/-- The side conditions of a well-typed formula, expression, value or tuple are exact, if the arrays whose
elements are read have lengths that are words. -/
theorem checks_exact {fits : Bounds} (hfits : ∀ n, fits.lengths n → n < 2 ^ 31) {Γ : Scope} {I : Interp}
    (hI : I.Regular Γ.functions) :
    (∀ f r, f.Typed fits Γ → Yields (formula (.ofScope Γ) f) r →
      ExactChecks I Γ r.checks fun ρ => f.Defined I ρ) ∧
    (∀ e t r, e.Typed fits Γ t → Yields (expr (.ofScope Γ) e) r →
      ExactChecks I Γ r.checks fun ρ => e.Defined I ρ) ∧
    (∀ v t r, v.Typed fits Γ t → Yields (value (.ofScope Γ) v) r →
      ExactChecks I Γ r.checks fun ρ => v.Defined I ρ) ∧
    (∀ v t r, v.Typed fits Γ t → Yields (tuple (.ofScope Γ) v) r →
      ExactChecks I Γ r.checks fun ρ => v.Defined I ρ) := by
  have hΓ := knows_ofScope Γ
  refine ⟨fun f r ht ⟨d, d', h⟩ => ?_, fun e t r ht ⟨d, d', h⟩ => ?_, fun v t r ht ⟨d, d', h⟩ => ?_,
    fun v t r ht ⟨d, d', h⟩ => ?_⟩
  · exact exactChecks_of_faithful hfits (faithful_formula (runs_formula h) hΓ ht hI)
      (allAgree_formula hfits (runs_formula h) hΓ ht)
  · exact exactChecks_of_faithful hfits (faithful_expr (runs_expr h) hΓ ht hI)
      (allAgree_expr hfits (runs_expr h) hΓ ht)
  · exact exactChecks_of_faithful hfits (faithful_value (runs_value h) hΓ ht hI)
      (allAgree_value hfits (runs_value h) hΓ ht)
  · exact exactChecks_of_faithful hfits (faithful_tuple (runs_tuple h) hΓ ht hI)
      (allAgree_tuple hfits (runs_tuple h) hΓ ht)

/-- Arrays have lengths that are words, and only numbers and truth values are equated. -/
def wordBounds : Bounds := ⟨fun n => n < 2 ^ 31, fun _ => True, fun _ => False⟩

/-- A number and an array of four numbers. -/
def fourScope : Scope := ⟨.ofList [("a", .array .i32 4), ("x", .i32)], []⟩

/-- `x != 0`, and some element of `a` that is found by dividing by `x` is zero. -/
def someZero : Formula :=
  .and (.notEqual (.value (.var "x")) (.num 0))
    (.quant .some "i" .i32 (.equal (.value (.place (.elem .array "a"
      (.expr (.op .div (.value (.var "i")) (.value (.var "x"))) none) none) none)) (.num 0)))

theorem typed_someZero : someZero.Typed wordBounds fourScope := by
  refine ⟨⟨.i32, .inr (.inl rfl), ⟨.i32, rfl, rfl⟩, rfl⟩, ⟨.i32, .inr (.inl rfl), ?_, rfl⟩⟩
  exact ⟨.array .i32 4, 4, rfl, rfl, by norm_num [wordBounds], rfl, rfl, ⟨.i32, rfl, rfl⟩, ⟨.i32, rfl, rfl⟩⟩

/-- Both side conditions of `someZero` are below its quantifier and needed only if `x` is not zero. -/
theorem checks_exact_someZero :
    ∃ r, Yields (formula (.ofScope fourScope) someZero) r ∧ r.checks.length = 2 ∧
      ExactChecks (.plain (fun _ _ => .unit) fun _ n => n) fourScope r.checks
        fun ρ => someZero.Defined (.plain (fun _ _ => .unit) fun _ n => n) ρ := by
  have hlength : ((formula (.ofScope fourScope) someZero).run.run default).1.toOption.map
      (fun r => r.checks.length) = some 2 := by cbv
  have hwords : ∀ n, wordBounds.lengths n → n < 2 ^ 31 := fun _ h => h
  have hregular : (Interp.plain (fun _ _ => .unit) fun _ n => n).Regular fourScope.functions :=
    Interp.regular_plain (fun _ _ _ h => absurd h (by simp [fourScope])) _
  rcases hrun : (formula (.ofScope fourScope) someZero).run.run default with ⟨e | r, d⟩
  · simp [hrun, Except.toOption] at hlength
  · have hyields : Yields (formula (.ofScope fourScope) someZero) r := ⟨default, d, hrun⟩
    refine ⟨r, hyields, by simpa [hrun, Except.toOption] using hlength, ?_⟩
    exact (checks_exact hwords hregular).1 someZero r typed_someZero hyields

end Encoding

end Verdict
