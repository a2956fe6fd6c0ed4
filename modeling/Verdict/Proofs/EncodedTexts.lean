import Verdict.Lang.Node
import Verdict.Proofs.EncodedTypes
import Verdict.Proofs.SortChecks
import Verdict.Proofs.TermTexts

/-! # The texts of encodings

No name in the terms that formulas of a program become can be read as anything else
(`Term.kept_spelled`): variables are spelled as names, and what is made from them contains a prime. So
these terms are read back from their texts, unless a part is absent. None is if in every choice between two
tuples the second one has all sorts of elements that the first one has (`Encoding.keeps_formula`). Encoding
does not check this, so there are formulas whose encoding cannot be written (`Program.exists_unwritable`),
and obligations whose query has no text (`Program.exists_unprintable`); all others are read back
(`Program.terms_read_back`). -/

namespace Verdict

/-! ### The names of encodings -/

theorem SmtSort.bar_not_mem_tag (s : SmtSort) : '|' ∉ s.tag.toList := by
  induction s with
  | int => decide
  | bool => decide
  | array s ih => simpa [SmtSort.tag] using ih

/-- Whether no function of a scope has a bar in its name. -/
def Scope.NoBars (Γ : Scope) : Prop := ∀ f g, Γ.function? f = some g → '|' ∉ f.toList

namespace Encoding

theorem bar_not_mem_functionName {f : String} (hf : '|' ∉ f.toList) : '|' ∉ (functionName f).toList := by
  simpa [functionName] using hf

theorem bar_not_mem_partName {x : String} (hx : '|' ∉ x.toList) (s : SmtSort) :
    '|' ∉ (partName x s).toList := by
  simp [partName, hx, s.bar_not_mem_tag]

end Encoding

/-! ### Choices that fit -/

mutual

/-- Whether the choices in the index of a place fit. -/
def Place.ChoicesFit (Γ : Scope) : Place → Prop
  | .name _ _ | .wildcard _ => True
  | .elem _ _ i _ => i.ChoicesFit Γ

/-- Whether in every choice between two tuples in a value the second one has all sorts of elements that
the first one has. Elements of values and changed values are not part of programs. -/
def Value.ChoicesFit (Γ : Scope) : Value → Prop
  | .expr a _ => a.ChoicesFit Γ
  | .formula f _ => f.ChoicesFit Γ
  | .place p _ => p.ChoicesFit Γ
  | .tuple vs _ | .array vs _ | .call _ vs _ => Value.AllChoicesFit Γ vs
  | .ref v _ _ | .deref v _ => v.ChoicesFit Γ
  | .ite c v w _ => c.ChoicesFit Γ ∧ v.ChoicesFit Γ ∧ w.ChoicesFit Γ ∧
    ∀ t u ts us, v.typeOf Γ = .ok t → w.typeOf Γ = .ok u → t.underlying = .tuple ts →
      u.underlying = .tuple us → ∀ s ∈ Encoding.tupleSorts ts, s ∈ Encoding.tupleSorts us
  | .unit _ | .select _ _ _ _ | .store _ _ _ _ _ | .missing => True

def Value.AllChoicesFit (Γ : Scope) : List Value → Prop
  | [] => True
  | v :: vs => v.ChoicesFit Γ ∧ Value.AllChoicesFit Γ vs

def Expr.ChoicesFit (Γ : Scope) : Expr → Prop
  | .num _ => True
  | .value v => v.ChoicesFit Γ
  | .op _ a b => a.ChoicesFit Γ ∧ b.ChoicesFit Γ

def Formula.ChoicesFit (Γ : Scope) : Formula → Prop
  | .lit _ => True
  | .and f g | .or f g => f.ChoicesFit Γ ∧ g.ChoicesFit Γ
  | .not f => f.ChoicesFit Γ
  | .value v => v.ChoicesFit Γ
  | .equal a b | .compare _ a b => a.ChoicesFit Γ ∧ b.ChoicesFit Γ
  | .quant _ x t f => f.ChoicesFit (Γ.declare x t)

end

variable {ss : List SmtSort} {Γ : Scope} {v : Value}

namespace Term

theorem allWhole_iff {ts : List Term} : AllWhole ts ↔ ∀ t ∈ ts, t.IsWhole := by
  induction ts with
  | nil => simp [AllWhole]
  | cons t ts ih => simp [AllWhole, ih]

/-- Whether a property of terms is kept by all that encodings make of terms. -/
structure Kept (P : Term → Prop) : Prop where
  composes : Composes fun t _ => P t
  const : ∀ {x}, IsConstant x → P (const x)
  function : ∀ {fn ts}, '|' ∉ fn.toList → '\'' ∈ fn.toList → (∀ t ∈ ts, P t) → P (app fn ts)
  quant : ∀ {q x s t}, '|' ∉ x.toList → P t → P (quant q x s t)

theorem mem_operators_of_operatorSort? {fn : String} {s : SmtSort}
    (h : operatorSort? fn ss = some s) : fn ∈ operators ∧ (fn = "-" → ss.length = 2) := by
  unfold operatorSort? at h
  split at h <;> first | cases h; done | simp [operators]

theorem forall_of_forall₂ {P : Term → Prop} {ts : List Term}
    (h : List.Forall₂ (fun t _ => P t) ts ss) : ∀ t ∈ ts, P t := by
  induction h with
  | nil => simp
  | cons ht _ ih => exact List.forall_mem_cons.mpr ⟨ht, ih⟩

/-- All names of encodings are read as what they are. -/
theorem kept_spelled : Kept Spelled := by
  refine ⟨⟨fun _ => trivial, fun _ => trivial, fun hts hs => ?_, id⟩, id, fun hbar hfn hts =>
    spelled_function hbar hfn (allSpelled_iff.mpr hts), And.intro⟩
  obtain ⟨hfn, hminus⟩ := mem_operators_of_operatorSort? hs
  refine spelled_operator hfn (fun h => ?_) (allSpelled_iff.mpr (forall_of_forall₂ hts))
  rw [hts.length_eq, hminus h]
  decide

theorem kept_isWhole : Kept IsWhole :=
  ⟨⟨fun _ => trivial, fun _ => trivial, fun hts _ => allWhole_iff.mpr (forall_of_forall₂ hts), id⟩,
    fun _ => trivial, fun _ _ => allWhole_iff.mpr, fun _ => id⟩

end Term

namespace Encoding

open Term

theorem exists_of_typesOf {vs : List Value} {ts : List Ty} (h : Value.typesOf Γ (v :: vs) = .ok ts) :
    ∃ t us, v.typeOf Γ = .ok t ∧ Value.typesOf Γ vs = .ok us ∧ ts = t :: us := by
  rw [Value.typesOf] at h
  cases ht : v.typeOf Γ with
  | error e =>
    rw [ht] at h
    cases h
  | ok t =>
    cases hus : Value.typesOf Γ vs with
    | error e =>
      rw [ht, hus] at h
      cases h
    | ok us =>
      rw [ht, hus] at h
      exact ⟨t, us, rfl, rfl, (Except.ok.inj h).symm⟩

variable {d' d : Declarations}

variable {P : Term → Prop} {parts parts' : NameMap Term}

/-- A part has a property that all parts have, also where there is none if an absent part has it. -/
theorem PartsSorted.part_of_or {s : SmtSort} (h : PartsSorted (fun t _ => P t) parts ss)
    (hs : P .absent ∨ s ∈ ss) : P (Encoding.part parts s) := by
  rcases hs with habsent | hs
  · unfold Encoding.part
    cases hp : parts.get? s.tag with
    | none => exact habsent
    | some p =>
      obtain ⟨_, -, -, hp⟩ := h.sorts s.tag p hp
      exact hp
  · exact h.part hs

theorem Ran.keeps_namedTuple (hP : Kept P) {env : Env} {x : String} (hx : '|' ∉ x.toList)
    {ts : List Ty} {done : List SmtSort} (h : Ran (Encoding.namedTuple env x parts ts) d parts' d')
    (hparts : PartsSorted (fun t _ => P t) parts done) :
    PartsSorted (fun t _ => P t) parts' (done ++ tupleSorts ts) := by
  induction ts generalizing done parts d with
  | nil =>
    obtain ⟨rfl, -⟩ := ran_pure.mp h
    exact hparts.congr fun s => by simp [mem_tupleSorts]
  | cons t ts ih =>
    simp only [Encoding.namedTuple, ran_bind, ran_orFail] at h
    obtain ⟨s, _, ⟨hs, -⟩, _, _, -, h⟩ := h
    have hpart := hP.const (isConstant_of_prime (bar_not_mem_partName hx s) (prime_mem_partName x s))
    exact (ih h (hparts.insert hpart)).tupleSorts_cons hs

theorem Ran.keeps_callParts (hP : Kept P) {f : String} (hf : '|' ∉ f.toList) {as : EncodedArgs}
    (has : ∀ t ∈ as.terms, P t) {done : List SmtSort}
    (h : Ran (Encoding.callParts f as parts ss) d parts' d')
    (hparts : PartsSorted (fun t _ => P t) parts done) :
    PartsSorted (fun t _ => P t) parts' (done ++ ss) := by
  induction ss generalizing done parts d with
  | nil =>
    obtain ⟨rfl, -⟩ := ran_pure.mp h
    exact (List.append_nil done).symm ▸ hparts
  | cons s ss ih =>
    simp only [Encoding.callParts, ran_bind] at h
    obtain ⟨_, _, -, h⟩ := h
    have hpart := hP.function (bar_not_mem_partName (bar_not_mem_functionName hf) s)
      (prime_mem_partName _ s) has
    rw [List.append_cons]
    exact ih h (hparts.insert hpart)

mutual

theorem keeps_place (hP : Kept P) {p env d d' r} (h : RunPlace env p d r d') (henv : env.scope.NoBars)
    (hp : p.Written) (hfit : P .absent ∨ p.ChoicesFit env.scope) : P r.term := by
  cases h with
  | name => exact hP.const (isConstant_of_isName hp)
  | array _ _ _ _ hi =>
    exact hP.composes.select (s := .int) (hP.const (isConstant_of_isName hp.1))
      (keeps_value hP hi henv hp.2 hfit)
  | tuple _ _ hparts _ he hs =>
    have hsort := mem_tupleSorts.mpr ⟨_, List.mem_of_getElem? he, hs⟩
    have hall := hparts.keeps_namedTuple hP (isConstant_of_isName hp.1).bar .empty
    exact hP.composes.select (s := .int) (hall.part hsort) (hP.composes.int _)

/-- What is kept holds of the encoding of a value, if its choices fit or an absent part has it too. -/
theorem keeps_value (hP : Kept P) {v env d d' r} (h : RunValue env v d r d') (henv : env.scope.NoBars)
    (hv : v.Written) (hfit : P .absent ∨ v.ChoicesFit env.scope) : P r.term := by
  cases h with
  | expr ha => exact keeps_expr hP ha henv hv hfit
  | formula hf => exact keeps_formula hP hf henv hv hfit
  | place hp => exact keeps_place hP hp henv hv hfit
  | @array _ _ _ _ r _ _ _ _ hfirst hrest =>
    have hterm := keeps_value hP hfirst henv hv.1 (hfit.imp_right And.left)
    exact keeps_elements hP hrest henv hv.2 (hfit.imp_right And.right)
      (hP.composes.constArray (s := r.sort) hterm)
  | @call _ f _ _ g _ _ _ _ _ hg _ has =>
    exact hP.function (bar_not_mem_functionName (henv f g hg)) (prime_mem_functionName f)
      (keeps_args hP has henv hv hfit)
  | ref hr | deref hr => exact (keeps_value hP hr henv hv hfit :)
  | ite hc hfirst hsecond =>
    exact hP.composes.ite (s := .int) (keeps_formula hP hc henv hv.1 (hfit.imp_right And.left))
      (keeps_value hP hfirst henv hv.2.1 (hfit.imp_right (·.2.1)))
      (keeps_value hP hsecond henv hv.2.2 (hfit.imp_right (·.2.2.1)))
  | element | select | store => exact hv.elim

theorem keeps_elements (hP : Kept P) {vs env array r s i d d'} (h : RunElements env array s i vs d r d')
    (henv : env.scope.NoBars) (hvs : Value.AllWritten vs)
    (hfit : P .absent ∨ Value.AllChoicesFit env.scope vs) (harray : P array.term) : P r.term := by
  cases h with
  | nil => exact harray
  | cons hv _ hrest =>
    have hfirst := keeps_value hP hv henv hvs.1 (hfit.imp_right And.left)
    exact keeps_elements hP hrest henv hvs.2 (hfit.imp_right And.right)
      (hP.composes.store (s := s) harray (hP.composes.int _) hfirst)

theorem keeps_args (hP : Kept P) {vs env d d' r} (h : RunArgs env vs d r d') (henv : env.scope.NoBars)
    (hvs : Value.AllWritten vs) (hfit : P .absent ∨ Value.AllChoicesFit env.scope vs) :
    ∀ t ∈ r.terms, P t := by
  cases h with
  | nil => exact fun _ ht => absurd ht List.not_mem_nil
  | tuple _ _ hv hrest =>
    have hparts := keeps_tuple hP hv henv hvs.1 (hfit.imp_right And.left)
    refine List.forall_mem_append.mpr ⟨List.forall_mem_map.mpr fun s hs => hparts.part hs, ?_⟩
    exact keeps_args hP hrest henv hvs.2 (hfit.imp_right And.right)
  | value _ _ hv hrest =>
    exact List.forall_mem_cons.mpr ⟨keeps_value hP hv henv hvs.1 (hfit.imp_right And.left),
      keeps_args hP hrest henv hvs.2 (hfit.imp_right And.right)⟩

/-- The encoding of a tuple has a part for each sort that an element of its type has. -/
theorem keeps_tuple (hP : Kept P) {v env d d' r} (h : RunTuple env v d r d') (henv : env.scope.NoBars)
    (hv : v.Written) (hfit : P .absent ∨ v.ChoicesFit env.scope) :
    PartsSorted (fun t _ => P t) r.parts (tupleSorts r.elements) := by
  cases h with
  | name _ _ hparts => exact hparts.keeps_namedTuple hP (isConstant_of_isName hv).bar .empty
  | literal ht hts hvs =>
    obtain ⟨us, hus, rfl⟩ := exists_of_map ht
    obtain rfl := Ty.tuple.inj hts
    exact keeps_literal hP hvs henv hv hfit hus .empty
  | ref _ _ hr | deref _ _ hr => exact (keeps_tuple hP hr henv hv hfit :)
  | ite ht hts hc hfirst hsecond =>
    have hthen := underlying_tuple hfirst ht
    obtain rfl := Ty.tuple.inj (hthen.symm.trans hts)
    obtain ⟨u, hu⟩ := exists_typeOf_of_tuple hsecond
    refine (keeps_tuple hP hfirst henv hv.2.1 (hfit.imp_right (·.2.1))).choice hP.composes
      (keeps_formula hP hc henv hv.1 (hfit.imp_right And.left)) fun s hs => ?_
    refine (keeps_tuple hP hsecond henv hv.2.2 (hfit.imp_right (·.2.2.1))).part_of_or ?_
    exact hfit.imp_right fun h => h.2.2.2 _ u _ _ ht hu hthen (underlying_tuple hsecond hu) s hs
  | @call _ f _ _ g _ _ _ _ _ _ hg _ has hparts =>
    exact hparts.keeps_callParts hP (henv f g hg) (keeps_args hP has henv hv hfit) .empty
  | store => exact hv.elim

theorem keeps_literal (hP : Kept P) {vs env cs parts i d d' r ts done} (h : RunLiteral env cs parts i vs d r d')
    (henv : env.scope.NoBars) (hvs : Value.AllWritten vs)
    (hfit : P .absent ∨ Value.AllChoicesFit env.scope vs)
    (hts : Value.typesOf env.scope vs = .ok ts) (hparts : PartsSorted (fun t _ => P t) parts done) :
    PartsSorted (fun t _ => P t) r.2 (done ++ tupleSorts ts) := by
  cases h with
  | nil =>
    obtain rfl := Except.ok.inj hts
    exact hparts.congr fun s => by simp [mem_tupleSorts]
  | cons hv hrest =>
    obtain ⟨t, us, ht, hus, rfl⟩ := exists_of_typesOf hts
    have hfirst := keeps_value hP hv henv hvs.1 (hfit.imp_right And.left)
    exact (keeps_literal hP hrest henv hvs.2 (hfit.imp_right And.right) hus
      (hparts.literalPart hP.composes hfirst)).tupleSorts_cons (sortOf_value hv ht)

theorem keeps_expr (hP : Kept P) {a env d d' r} (h : RunExpr env a d r d') (henv : env.scope.NoBars)
    (ha : a.Written) (hfit : P .absent ∨ a.ChoicesFit env.scope) : P r.term := by
  cases h with
  | num => exact hP.composes.int _
  | value hv => exact keeps_value hP hv henv ha hfit
  | op hleft _ hright =>
    exact hP.composes.arithmetic _ (keeps_expr hP hleft henv ha.1 (hfit.imp_right And.left))
      (keeps_expr hP hright henv ha.2 (hfit.imp_right And.right))

/-- What is kept holds of the encoding of a formula, if its choices fit or an absent part has it too. -/
theorem keeps_formula (hP : Kept P) {f env d d' r} (h : RunFormula env f d r d') (henv : env.scope.NoBars)
    (hf : f.Written) (hfit : P .absent ∨ f.ChoicesFit env.scope) : P r.term := by
  cases h with
  | lit => exact hP.composes.lit _
  | and hleft hright | or hleft hright =>
    exact hP.composes.join (fun _ => rfl)
      (keeps_formula hP hleft henv hf.1 (hfit.imp_right And.left))
      (keeps_formula hP hright henv hf.2 (hfit.imp_right And.right))
  | not hr => exact hP.composes.not (keeps_formula hP hr henv hf hfit)
  | value hv => exact keeps_value hP hv henv hf hfit
  | equal ha hb =>
    exact hP.composes.eq (s := .int) (keeps_expr hP ha henv hf.1 (hfit.imp_right And.left))
      (keeps_expr hP hb henv hf.2 (hfit.imp_right And.right))
  | compare ha hb _ ht =>
    exact hP.composes.order ht (keeps_expr hP ha henv hf.1 (hfit.imp_right And.left))
      (keeps_expr hP hb henv hf.2 (hfit.imp_right And.right))
  | @quant env _ x t _ _ _ _ _ _ hbody =>
    have hbind : (env.bind x t).scope.NoBars := henv
    exact hP.quant (isConstant_of_isName hf.1).bar (keeps_formula hP hbody hbind hf.2 hfit)

end

end Encoding

/-! ### Programs without bars -/

theorem Token.bar_not_mem_barred : ∀ {cs inner rest : List Char}, barred cs = some (inner, rest) →
    '|' ∉ inner
  | [], inner, rest, h => by cases h
  | c :: cs, inner, rest, h => by
    rw [barred] at h
    split_ifs at h with hc
    · obtain ⟨rfl, -⟩ := Prod.mk.inj (Option.some.inj h)
      exact List.not_mem_nil
    · obtain ⟨⟨inner', rest'⟩, hbarred, h⟩ := Option.map_eq_some_iff.mp h
      obtain ⟨rfl, rfl⟩ := Prod.mk.inj h
      rw [List.mem_cons, not_or]
      exact ⟨Ne.symm hc, bar_not_mem_barred hbarred⟩

def Token.NoBar (t : Token) : Prop := ∀ x, t.kind = .symbol x → '|' ∉ x.toList

/-- No symbol of a text contains a bar. -/
theorem Token.noBar_scanFrom (pos : ℕ) (cs : List Char) : ∀ t ∈ scanFrom pos cs, t.NoBar := by
  fun_induction scanFrom pos cs with
  | case1 => simp
  | case2 pos c cs hblank ih => exact ih
  | case3 pos cs rest hrest hblank ih => exact ih
  | case4 pos cs hblank hcomment ih => exact List.forall_mem_cons.mpr ⟨fun x hx => (by cases hx), ih⟩
  | case5 pos cs hblank hcomment hopening ih =>
    exact List.forall_mem_cons.mpr ⟨fun x hx => (by cases hx), ih⟩
  | case6 pos cs hnone hblank hcomment hopening hclosing =>
    exact List.forall_mem_singleton.mpr fun x hx => by cases hx
  | case7 pos cs inner rest hbarred hlength hblank hcomment hopening hclosing ih =>
    refine List.forall_mem_cons.mpr ⟨fun x hx => ?_, ih⟩
    obtain rfl := Kind.symbol.inj hx
    rw [String.toList_ofList]
    exact bar_not_mem_barred hbarred
  | case8 pos c cs hblank hcomment hopening hclosing hbar chars hlength ih =>
    refine List.forall_mem_cons.mpr ⟨fun x hx => ?_, ih⟩
    obtain rfl := Kind.symbol.inj hx
    rw [String.toList_ofList, List.mem_cons, not_or]
    refine ⟨Ne.symm hbar, fun hmem => ?_⟩
    have hdelimiter := List.mem_takeWhile_imp hmem
    exact absurd hdelimiter (by decide)

namespace STree

theorem noBars_close {p : Pending} (hp : ∀ e ∈ p.elements, e.erase.NoBars) (pos : ℕ) :
    (p.close pos).erase.NoBars := by
  have hall : ∀ {es : List STree}, (∀ e ∈ es, e.erase.NoBars) → SExp.AllNoBars (eraseAll es) := by
    intro es
    induction es with
    | nil => exact fun _ => trivial
    | cons e es ih =>
      intro h
      obtain ⟨he, hes⟩ := List.forall_mem_cons.mp h
      exact ⟨he, ih hes⟩
  exact hall fun e he => hp e (List.mem_reverse.mp he)

/-- A tree of tokens without bars has no bars. -/
theorem noBars_next {stack : List Pending} {ts rest : List Token} {tree : STree}
    (h : next stack ts = .ok (some (tree, rest))) (hts : ∀ t ∈ ts, t.NoBar)
    (hstack : ∀ p ∈ stack, ∀ e ∈ p.elements, e.erase.NoBars) :
    tree.erase.NoBars ∧ ∀ t ∈ rest, t.NoBar := by
  fun_induction next stack ts with
  | case1 stack hempty => cases h
  | case2 stack hempty => cases h
  | case3 stack t ts hkind ih =>
    obtain ⟨-, hts⟩ := List.forall_mem_cons.mp hts
    exact ih h hts (List.forall_mem_cons.mpr ⟨fun e he => absurd he List.not_mem_nil, hstack⟩)
  | case4 t ts hkind => cases h
  | case5 t ts p hkind =>
    obtain ⟨-, hts⟩ := List.forall_mem_cons.mp hts
    obtain ⟨rfl, rfl⟩ := Prod.mk.inj (Option.some.inj (Except.ok.inj h))
    exact ⟨noBars_close (hstack p List.mem_cons_self) _, hts⟩
  | case6 t ts p q stack hkind ih =>
    obtain ⟨-, hts⟩ := List.forall_mem_cons.mp hts
    obtain ⟨hp, hq, hstack⟩ := List.forall_mem_cons.mp hstack |>.imp_right List.forall_mem_cons.mp
    refine ih h hts (List.forall_mem_cons.mpr ⟨?_, hstack⟩)
    exact List.forall_mem_cons.mpr ⟨noBars_close hp _, hq⟩
  | case7 t ts x hkind =>
    obtain ⟨ht, hts⟩ := List.forall_mem_cons.mp hts
    obtain ⟨rfl, rfl⟩ := Prod.mk.inj (Option.some.inj (Except.ok.inj h))
    exact ⟨ht x hkind, hts⟩
  | case8 t ts x p stack hkind ih =>
    obtain ⟨ht, hts⟩ := List.forall_mem_cons.mp hts
    obtain ⟨hp, hstack⟩ := List.forall_mem_cons.mp hstack
    refine ih h hts (List.forall_mem_cons.mpr ⟨?_, hstack⟩)
    exact List.forall_mem_cons.mpr ⟨ht x hkind, hp⟩
  | case9 stack t ts hkind => cases h

theorem noBars_readTokens (ts : List Token) (hts : ∀ t ∈ ts, t.NoBar) :
    ∀ tree ∈ (readTokens ts).1, tree.erase.NoBars := by
  rw [readTokens]
  split
  · simp
  · simp
  · next tree rest hnext =>
    have := next_length hnext
    obtain ⟨htree, hrest⟩ := noBars_next hnext hts fun p hp => absurd hp List.not_mem_nil
    exact List.forall_mem_cons.mpr ⟨htree, noBars_readTokens rest hrest⟩
termination_by ts.length

end STree

variable {f : Function}

namespace Reading

variable {unitAt : Span → Origin}

theorem bar_not_mem_function {default : Value} {t : STree} (h : function unitAt default t = .ok f)
    (ht : t.erase.NoBars) : '|' ∉ f.name.toList := by
  unfold function at h
  split at h
  · obtain ⟨ins, -, h⟩ := of_bind h
    obtain ⟨out, -, h⟩ := of_bind h
    obtain ⟨parts, -, h⟩ := of_bind h
    cases h
    exact ht.2.1
  · split at h <;> cases h
  · cases h

theorem bar_not_mem_functions {default : Value} {ts : List STree} (hts : ∀ t ∈ ts, t.erase.NoBars) :
    ∀ f ∈ (functions unitAt default ts).1, '|' ∉ f.name.toList := by
  induction ts with
  | nil => simp [functions]
  | cons t ts ih =>
    obtain ⟨ht, hts⟩ := List.forall_mem_cons.mp hts
    simp only [functions]
    split
    · next f hf => exact List.forall_mem_cons.mpr ⟨bar_not_mem_function hf ht, ih hts⟩
    · exact ih hts

end Reading

/-- No function of a program that is read has a bar in its name. -/
theorem Program.bar_not_mem_of_read {file : SourceFile} {p : Program}
    (h : (Program.read file).program = some p) : ∀ f ∈ p.functions, '|' ∉ f.name.toList := by
  unfold Program.read at h
  split at h
  · cases h
  · next trees htrees =>
    cases h
    have hbars := STree.noBars_readTokens (Token.scan file.text) (Token.noBar_scanFrom 0 file.text)
    have heq : (STree.readTokens (Token.scan file.text)).1 = trees := congrArg Prod.fst htrees
    rw [heq] at hbars
    exact Reading.bar_not_mem_functions hbars

theorem Program.bar_not_mem_infer {p : Program} (h : ∀ f ∈ p.functions, '|' ∉ f.name.toList) :
    ∀ f ∈ p.infer.1.functions, '|' ∉ f.name.toList := by
  intro g hg
  simp only [infer, List.mem_map] at hg
  obtain ⟨_, ⟨f, hf, rfl⟩, rfl⟩ := hg
  exact h f hf

theorem Scope.noBars_of_functions (h : ∀ f ∈ Γ.functions, '|' ∉ f.name.toList) : Γ.NoBars := by
  intro f g hg
  have hname : g.name = f := by simpa using List.find?_some hg
  exact hname ▸ h g (List.mem_of_find?_eq_some hg)

/-! ### The nodes of a program -/

/-- Whether a node other than a command can be written down. -/
def Node.Written : Node → Prop
  | .value v => v.Written
  | .expr a => a.Written
  | .formula f => f.Written
  | .place p => p.Written
  | .command _ => True

theorem Node.written_parts : ∀ n : Node, n.Written → ∀ m ∈ n.parts, m.Written
  | .place (.name _ _), _ | .place (.wildcard _), _ | .value (.unit _), _ | .expr (.num _), _
  | .formula (.lit _), _ | .command _, _ => List.forall_mem_nil _
  | .value (.expr _ _), h | .value (.formula _ _), h | .value (.place _ _), h | .value (.ref _ _ _), h
  | .value (.deref _ _), h | .expr (.value _), h | .formula (.value _), h | .formula (.not _), h =>
    List.forall_mem_singleton.mpr h
  | .place (.elem _ _ _ _), h | .formula (.quant _ _ _ _), h => List.forall_mem_singleton.mpr h.2
  | .value (.tuple vs _), h | .value (.array vs _), h | .value (.call _ vs _), h => by
    intro m hm
    obtain ⟨v, hv, rfl⟩ := List.mem_map.mp hm
    exact Value.allWritten_iff.mp h v hv
  | .value (.ite c v w _), h => by
    simp only [parts, List.forall_mem_cons]
    exact ⟨h.1, h.2.1, h.2.2, List.forall_mem_nil _⟩
  | .expr (.op _ a b), h | .formula (.equal a b), h | .formula (.compare _ a b), h
  | .formula (.and f g), h | .formula (.or f g), h => by
    simp only [parts, List.forall_mem_cons]
    exact ⟨h.1, h.2, List.forall_mem_nil _⟩
  | .value (.select _ _ _ _), h | .value (.store _ _ _ _ _), h | .value .missing, h => h.elim

section Visit

variable {enter : Node → Bool}

theorem Value.Written.visit (h : v.Written) : ∀ n ∈ v.visit enter, n.Written :=
  Node.forall_visit_value (P := Node.Written) (fun n hn _ => n.written_parts hn) v h

theorem Formula.Written.visit {f : Formula} (h : f.Written) : ∀ n ∈ f.visit enter, n.Written :=
  Node.forall_visit_formula (P := Node.Written) (fun n hn _ => n.written_parts hn) f h

theorem Expr.Written.visit {a : Expr} (h : a.Written) : ∀ n ∈ a.visit enter, n.Written :=
  Node.forall_visit_expr (P := Node.Written) (fun n hn _ => n.written_parts hn) a h

theorem Assignment.Written.visit {a : Assignment} (h : a.Written) :
    ∀ n ∈ a.visit enter, n.Written := by
  have htarget : ∀ n ∈ a.target.visit enter, n.Written :=
    Node.forall_visit_place (P := Node.Written) (fun n hn _ => n.written_parts hn) a.target h.1
  exact Node.forall_with trivial fun _ => List.forall_mem_append.mpr ⟨htarget, h.2.visit⟩

mutual

theorem Command.Written.visit : ∀ (c : Command), c.Written → ∀ n ∈ c.visit enter, n.Written
  | .declare d, h | .noop o, h => List.forall_mem_singleton.mpr trivial
  | .bind d v, h => Node.forall_with trivial fun _ => Value.Written.visit h.2
  | .bindTuple ds v o, h => Node.forall_with trivial fun _ => Value.Written.visit h
  | .assign a, h => Assignment.Written.visit h
  | .assignAll as o, h => Node.forall_with trivial fun _ n hn => by
    obtain ⟨a, ha, hn⟩ := List.mem_flatMap.mp hn
    exact (h a ha).visit n hn
  | .assert f o, h | .assume f o, h | .invariant f o, h =>
    Node.forall_with trivial fun _ => Formula.Written.visit h
  | .cond bs o, h => Node.forall_with trivial fun _ => Branches.Written.visit bs h
  | .forRange i lo hi inv body o, h => by
    obtain ⟨-, hlo, hhi, hinv, hbody⟩ := h
    refine Node.forall_with trivial fun _ => ?_
    simp only [List.forall_mem_append]
    exact ⟨⟨⟨hlo.visit, hhi.visit⟩, hinv.visit⟩, Command.AllWritten.visit body hbody⟩
  | .whileLoop c inv variant body o, h => by
    obtain ⟨hc, hinv, hvariant, hbody⟩ := h
    refine Node.forall_with trivial fun _ => ?_
    simp only [List.forall_mem_append]
    refine ⟨⟨⟨hc.visit, hinv.visit⟩, ?_⟩, Command.AllWritten.visit body hbody⟩
    cases variant with
    | none => simp
    | some a => exact (hvariant a rfl).visit

theorem Branches.Written.visit : ∀ (bs : Branches), bs.Written → ∀ n ∈ bs.visit enter, n.Written
  | .otherwise b, h => Command.AllWritten.visit b h
  | .branch c b rest, h => by
    simp only [Branches.visit, List.forall_mem_append]
    exact ⟨⟨h.1.visit, Command.AllWritten.visit b h.2.1⟩, Branches.Written.visit rest h.2.2⟩

theorem Command.AllWritten.visit : ∀ (cs : List Command), Command.AllWritten cs →
    ∀ n ∈ Command.visitAll enter cs, n.Written
  | [], h => fun n hn => absurd hn List.not_mem_nil
  | c :: cs, h => by
    simp only [Command.visitAll, List.forall_mem_append]
    exact ⟨Command.Written.visit c h.1, Command.AllWritten.visit cs h.2⟩

end

end Visit

/-- All nodes of a written function can be written down. -/
theorem Function.Written.nodes (h : f.Written) : ∀ n ∈ f.nodes, n.Written := by
  simp only [Function.nodes, List.forall_mem_append]
  exact ⟨⟨⟨h.precondition.visit, Command.AllWritten.visit f.body h.body⟩, h.result.visit⟩,
    h.postcondition.visit⟩

/-! ### Programs -/

open Encoding in
/-- The terms that formulas of a program become are read back from what they are written as, in any layout.
They can be written if the choices between tuples in the formula fit. -/
theorem Program.terms_read_back {file : SourceFile} {p q : Program}
    (hread : (Program.read file).program = some p) (hq : q = p ∨ q = p.infer.1) {f : Function}
    (hf : f ∈ q.functions) {φ : Formula} (hφ : Node.formula φ ∈ f.nodes) {env : Encoding.Env}
    (hfunctions : env.scope.functions = q.functions) {r : Encoded} (hr : Yields (formula env φ) r) :
    (φ.ChoicesFit env.scope → ∃ e, r.term.toSExp = some e) ∧
      ∀ e, r.term.toSExp = some e → ∀ style : Layout, SExp.read (style.format e) = .ok e ∧
        SExp.read e.print = .ok e ∧ Term.ofSExp e = .ok r.term.plain := by
  have hprogram : f.Written ∧ ∀ g ∈ q.functions, '|' ∉ g.name.toList := by
    rcases hq with rfl | rfl
    · exact ⟨written_of_read hread f hf, bar_not_mem_of_read hread⟩
    · exact ⟨written_infer (written_of_read hread) f hf, bar_not_mem_infer (bar_not_mem_of_read hread)⟩
  have hwritten : φ.Written := hprogram.1.nodes _ hφ
  have hbars : env.scope.NoBars := Scope.noBars_of_functions (hfunctions ▸ hprogram.2)
  obtain ⟨_, _, hr⟩ := hr
  have hruns := runs_formula hr
  have hspelled := keeps_formula Term.kept_spelled hruns hbars hwritten (.inl trivial)
  refine ⟨fun hfit => ?_, fun e he style => hspelled.read he style⟩
  have hnames := Term.Spelled.names _ hspelled
  have hwhole := keeps_formula Term.kept_isWhole hruns hbars hwritten (.inr hfit)
  obtain ⟨e, he, -⟩ := r.term.exists_noBars hwhole hnames
  exact ⟨e, he⟩

/-- The term of the first formula of a function that can be encoded in a scope and is no literal. -/
def Function.firstTerm? (Γ : Scope) (f : Function) : Option Term :=
  f.nodes.findSome? fun
    | .formula (.lit _) => none
    | .formula φ =>
      match ((Encoding.formula (.ofScope Γ) φ).run.run default).1 with
      | .ok r => some r.term
      | .error _ => none
    | _ => none

theorem Function.exists_of_firstTerm? {t : Term} (h : f.firstTerm? Γ = some t) :
    ∃ φ r, Node.formula φ ∈ f.nodes ∧ Encoding.Yields (Encoding.formula (.ofScope Γ) φ) r ∧ r.term = t := by
  obtain ⟨n, hn, h⟩ := List.exists_of_findSome?_eq_some h
  split at h
  · cases h
  · next φ _ =>
    split at h
    · next r hr => exact ⟨φ, r, hn, ⟨default, _, Prod.ext hr rfl⟩, Option.some.inj h⟩
    · cases h
  · cases h

/-- A function that is called in bars, and a formula with a quantifier over arrays, a constant array and
negative literals. -/
def negativeText : SourceFile := .ofString "negative"
  "(defun |f g| ((a (array i32 2))) i32 (returns -1) (body))
  (defun h () unit (body (assert (forall a (array i32 2)
    (or (== (call |f g| a) -1) (== a (array -1 -2)))))))"

/-- The term of `negativeText`'s formula is read back within any width. -/
theorem Program.terms_read_back_negative : ∃ p f φ r e, (Program.read negativeText).program = some p ∧
    p.validate = [] ∧ f ∈ p.functions ∧ Node.formula φ ∈ f.nodes ∧
    Encoding.Yields (Encoding.formula (.ofScope ⟨.empty, p.functions⟩) φ) r ∧ r.term.toSExp = some e ∧
    e.print = "(forall ((a (Array Int Int))) (or (= (|f g'fn| a) (- 1)) " ++
      "(= a (store ((as const (Array Int Int)) (- 1)) 1 (- 2)))))" ∧
    ∀ width, SExp.read ((queryLayout width).format e) = .ok e ∧ SExp.read e.print = .ok e ∧
      Term.ofSExp e = .ok r.term.plain := by
  obtain ⟨p, f, hp, hvalid, hf, hruns⟩ := Program.exists_of_read negativeText
    (fun p f => ((f.firstTerm? ⟨.empty, p.functions⟩).bind Term.print?).any
      (· == "(forall ((a (Array Int Int))) (or (= (|f g'fn| a) (- 1)) " ++
        "(= a (store ((as const (Array Int Int)) (- 1)) 1 (- 2)))))")) (by decide +kernel)
  obtain ⟨text, htext, hruns⟩ := (Option.any_eq_true _ _).mp hruns
  obtain ⟨t, ht, htext⟩ := Option.bind_eq_some_iff.mp htext
  obtain ⟨e, he, rfl⟩ := Option.map_eq_some_iff.mp htext
  obtain ⟨φ, r, hφ, hr, rfl⟩ := Function.exists_of_firstTerm? ht
  exact ⟨p, f, φ, r, e, hp, hvalid, hf, hφ, hr, he, beq_iff_eq.mp hruns, fun width =>
    (Program.terms_read_back hp (.inl rfl) hf hφ rfl hr).2 e he (queryLayout width)⟩

/-- A call with a choice between a pair of integers and a pair of truth values. -/
def mixedText : SourceFile := .ofString "mixed"
  "(defun f ((t (tuple i32 i32))) i32 (returns 0) (body))
  (defun g ((c bool)) unit (body (assert (== (call f (ite c (tuple 1 2) (tuple true false))) 0))))"

/-- The formula of `mixedText` can be encoded, but its term cannot be written. -/
theorem Program.exists_unwritable : ∃ p f φ r, (Program.read mixedText).program = some p ∧
    (Program.read mixedText).errors = [] ∧ p.validate = [] ∧ f ∈ p.functions ∧ Node.formula φ ∈ f.nodes ∧
    Encoding.Yields (Encoding.formula (.ofScope (Inference.inputs p f)) φ) r ∧ r.term.toSExp = none := by
  obtain ⟨p, f, hp, hvalid, hf, hruns⟩ := Program.exists_of_read mixedText
    (fun p f => (f.firstTerm? (Inference.inputs p f)).any fun t => t.toSExp.isNone) (by decide +kernel)
  have herrors : (Program.read mixedText).errors.isEmpty = true := by decide +kernel
  obtain ⟨t, ht, hnone⟩ := (Option.any_eq_true _ _).mp hruns
  obtain ⟨φ, r, hφ, hr, rfl⟩ := Function.exists_of_firstTerm? ht
  exact ⟨p, f, φ, r, hp, List.isEmpty_iff.mp herrors, hvalid, hf, hφ, hr, Option.isNone_iff_eq_none.mp hnone⟩

/-- The assertion of `mixedText` becomes an obligation with a query that has no text in any layout. -/
theorem Program.exists_unprintable : ∃ p o q, (Program.read mixedText).program = some p ∧
    (Program.read mixedText).errors = [] ∧ p.validate = [] ∧ o ∈ (p.infer.1.obligations .standard).1 ∧
    o.query = .ok q ∧ (∀ x ∈ q.names, '|' ∉ x.toList) ∧ ∀ layout, q.print? layout = none := by
  have herrors : (Program.read mixedText).errors.isEmpty = true := by decide +kernel
  have hruns : ((Program.read mixedText).program.any fun p => p.validate.isEmpty &&
      (p.infer.1.obligations .standard).1.any fun o => o.query.toOption.any fun q =>
        decide (∀ x ∈ q.names, '|' ∉ x.toList) && q.script?.isNone) = true := by decide +kernel
  obtain ⟨p, hp, hruns⟩ := (Option.any_eq_true _ _).mp hruns
  rw [Bool.and_eq_true, List.isEmpty_iff, List.any_eq_true] at hruns
  obtain ⟨hvalid, o, ho, hquery⟩ := hruns
  obtain ⟨q, hq, hquery⟩ := (Option.any_eq_true _ _).mp hquery
  rw [Bool.and_eq_true, decide_eq_true_eq, Option.isNone_iff_eq_none] at hquery
  obtain ⟨hnames, hscript⟩ := hquery
  exact ⟨p, o, q, hp, List.isEmpty_iff.mp herrors, hvalid, ho, toOption_eq_some.mp hq, hnames,
    fun layout => by simp [Query.print?, hscript]⟩

end Verdict
