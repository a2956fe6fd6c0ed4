import Verdict.Proofs.Closedness

/-! # Obligations of well-typed programs

Generation keeps types: if all functions of a program are well-typed, then so are all formulas of its
obligations, in the scope of the symbolic constants (`Generation.obligations_typed`). The discipline
behind it asks that nodes are well-typed, and promises that symbolic values have the types of what they
are values of. -/

namespace Verdict

/-! ### Numbering -/

mutual

/-- A value keeps its type when it is numbered. -/
theorem Value.Typed.number {fits : Bounds} (v : Value) (n : ℕ) {Γ : Scope} {t : Ty} (h : v.Typed fits Γ t) :
    (v.number.run n).1.Typed fits Γ t :=
  match v, h with
  | .expr _ none, h | .formula _ none, h | .place _ none, h | .call _ _ none, h | .ite _ _ _ none, h
  | .select .array _ _ none, h | .select .tuple _ _ none, h => h
  | .tuple vs none, h => by
    obtain ⟨ts, rfl, hlit, hvs⟩ := h
    have hall := hvs.numberAll vs n
    have hlen : ((numberAll vs).run n).1.length = vs.length :=
      hall.length_eq.trans hvs.length_eq.symm
    exact ⟨ts, rfl, hlen.symm ▸ hlit, hall⟩
  | .array vs none, h => by
    obtain ⟨u, rfl, ⟨hne, hlit⟩, hvs⟩ := h
    have hall := hvs.numberAll vs n
    have hlen : ((numberAll vs).run n).1.length = vs.length :=
      hall.length_eq.trans hvs.length_eq.symm
    refine ⟨u, congrArg (Ty.array u) hlen.symm, ⟨List.ne_nil_of_length_pos ?_, hlen.symm ▸ hlit⟩,
      hlen.symm ▸ hall⟩
    exact hlen.symm ▸ List.length_pos_of_ne_nil hne
  | .ref v _ none, h | .deref v none, h => Value.Typed.number v n h
  | .store .array b i v none, h => by
    obtain ⟨u, k, rfl, hb, hi, hv⟩ := h
    exact ⟨u, k, rfl, hb.number b n, hi, hv.number v _⟩
  | .store .tuple b i v none, h => by
    obtain ⟨ts, k, u, rfl, hb, hk, hu, hv⟩ := h
    exact ⟨ts, k, u, rfl, hb.number b n, hk, hu, hv.number v _⟩
  | .expr _ (some _), h | .formula _ (some _), h | .place _ (some _), h | .call _ _ (some _), h
  | .ite _ _ _ (some _), h | .select _ _ _ (some _), h | .tuple _ (some _), h | .array _ (some _), h
  | .ref _ _ (some _), h | .deref _ (some _), h | .store _ _ _ _ (some _), h | .unit _, h | .missing, h => h

theorem Value.AllTyped.numberAll {fits : Bounds} (vs : List Value) (n : ℕ) {Γ : Scope} {ts : List Ty}
    (h : Value.AllTyped fits Γ vs ts) : Value.AllTyped fits Γ ((Value.numberAll vs).run n).1 ts :=
  match vs, h with
  | [], h => h
  | v :: vs, h => by
    obtain ⟨t, ts, rfl, hv, hvs⟩ := h
    exact ⟨t, ts, rfl, hv.number v n, hvs.numberAll vs _⟩

end

/-! ### The discipline -/

namespace Generation

open Scoping

variable {functions : List Function} {fits : Bounds} {e : Env} {m : NameMap Ty} {σ : Substitution}

/-- Whether a symbolic value has a type. -/
def KeepsType (fits : Bounds) (functions : List Function) (m : NameMap Ty) (t : Ty) (v : Value) : Prop :=
  v.Typed fits ⟨m, functions⟩ t.bare

theorem extendsOn_of_under {m' : NameMap Ty} (h : m.Under m') (xs : Names) :
    (⟨m, functions⟩ : Scope).ExtendsOn ⟨m', functions⟩ xs :=
  ⟨fun x _ t ht => ⟨t, h x t ht, rfl⟩, fun _ _ => id⟩

theorem respects_of_carries (he : e.functions = functions) {xs : Names} {K : String → Prop}
    (hK : ∀ x ∈ xs.members, K x) (h : σ.Carries (KeepsType fits functions m) e K) :
    σ.Respects fits e.scope ⟨m, functions⟩ xs := by
  refine ⟨fun x hx t ht => ?_, fun f g hg => he ▸ hg⟩
  obtain ⟨v, hv, hkeeps⟩ := h x (hK x hx) t ht
  rw [Substitution.image, hv]
  exact hkeeps

variable {Γ : Scope} {t : Ty} {ts : List Ty}

theorem knows_of_within (h : e.Within Γ) : (Encoding.Env.ofScope Γ).Knows e.scope := by
  refine ⟨h.types, fun f g hg => ?_⟩
  change Γ.function? f = some g
  simp only [Scope.function?, h.functions]
  exact hg

/-- Calls may mean anything of their types. -/
theorem exists_regular (h : ∀ g ∈ functions, g.output.hasUnknown = false) :
    ∃ I : Interp, I.Regular functions := by
  let call : String → List Val → Val := fun f _ =>
    ((functions.find? fun g => g.name == f).map fun g => g.output.blank).getD .unit
  have hcall : ∀ f g args, (functions.find? fun g => g.name == f) = some g →
      Ty.HasAll (g.inputs.map Declaration.type) args → g.output.Has (call f args) := by
    intro f g args hg _
    have hvalue : call f args = g.output.blank := by
      simp only [call, hg, Option.map_some, Option.getD_some]
    rw [hvalue]
    exact Ty.has_blank _ (h g (List.mem_of_find?_eq_some hg))
  exact ⟨_, Interp.regular_plain hcall fun _ _ => 0⟩

theorem typed_valueChecks {v : Value} {cs : List Check} (hfs : ∀ g ∈ functions, g.output.hasUnknown = false)
    (he : e.functions = functions) (hv : v.Typed fits e.scope t) (hΓ : e.Within Γ)
    (hcs : RunChecks (.ofScope Γ) v cs) : ∀ c ∈ cs, c.cond.Typed fits e.scope := by
  obtain ⟨I, hI⟩ := exists_regular (he ▸ hfs)
  exact (faithful_valueChecks hcs (knows_of_within hΓ) hv hI).typed

theorem calls_of_callsTyped (he : e.functions = functions) {cs : List Call}
    (h : CallsTyped fits e.scope cs) :
    CallsHave functions (fun t v => e.functions = functions ∧ v.Typed fits e.scope t.bare) cs := by
  intro c hc callee hcallee
  obtain ⟨g, hg, hargs⟩ := h c hc
  have hfind : (functions.find? fun f => f.name == c.function) = some g := he ▸ hg
  obtain rfl := Option.mem_unique hcallee hfind
  exact ⟨he, callee, hg, rfl, hargs⟩

theorem forall₂_of_allTyped {vs : List Value} (h : Value.AllTyped fits Γ vs (Ty.bareAll ts)) :
    List.Forall₂ (fun t v => v.Typed fits Γ t.bare) ts vs := by
  rw [Ty.bareAll_eq_map] at h
  exact (List.forall₂_map_right_iff.mp h.forall₂).flip

theorem allTyped_of_forall₂ {vs : List Value} (h : List.Forall₂ (fun t v => v.Typed fits Γ t.bare) ts vs) :
    Value.AllTyped fits Γ vs (Ty.bareAll ts) := by
  rw [Ty.bareAll_eq_map]
  exact .of_forall₂ (List.forall₂_map_right_iff.mpr h.flip)

theorem keepsType_update {shape : Shape} {x : String} {i : Value} {o : Origin} {u : Ty} {b w : Value}
    (he : e.functions = functions) (hplace : (Value.place (.elem shape x i o) none).Typed fits e.scope t.bare)
    (hx : e.scope.vars.get? x = some u)
    (hσ : σ.Carries (KeepsType fits functions m) e (· ∈ i.freeVars.members))
    (hb : KeepsType fits functions m u b) (hw : KeepsType fits functions m t w) :
    KeepsType fits functions m u (.update shape b (i.substNonempty σ) w) := by
  unfold KeepsType at hb hw ⊢
  cases shape with
  | array =>
    obtain ⟨u', n, hu', hbare, -, hi⟩ := hplace
    obtain rfl := Option.mem_unique hu' hx
    rw [hbare] at hb ⊢
    exact Value.typed_update_array hb
      (hi.substNonempty i (respects_of_carries he (fun _ => id) hσ)) hw
  | tuple =>
    obtain ⟨u', ts, n, hu', hbare, hn, ht⟩ := hplace
    obtain rfl := Option.mem_unique hu' hx
    rw [hbare] at hb ⊢
    exact Value.typed_update_tuple hb (Value.constantIndex?_subst σ hn) ht hw

/-- Nodes are well-typed, and so is what is made of them. -/
def typedness (fits : Bounds) (functions : List Function)
    (hfs : ∀ g ∈ functions, g.output.hasUnknown = false) : Discipline functions where
  asksValue e t v := e.functions = functions ∧ v.Typed fits e.scope t.bare
  asksFormula e f := e.functions = functions ∧ f.Typed fits e.scope
  hasValue e t v := e.functions = functions ∧ v.Typed fits e.scope t.bare
  hasFormula e f := e.functions = functions ∧ f.Typed fits e.scope
  written := False
  keepsValue := KeepsType fits functions
  keepsFormula m f := f.Typed fits ⟨m, functions⟩
  keepsExpr m a := a.Typed fits ⟨m, functions⟩ .i32
  growValue h hv := Value.Typed.extend _ hv (extendsOn_of_under h _)
  growFormula h hf := hf.extend _ (extendsOn_of_under h _)
  growExpr h ha := ha.extend _ (extendsOn_of_under h _)
  passValue h _ _ := h
  passFormula h _ _ := h
  valueChecks h hΓ hcs hσ c hc := by
    have htyped := typed_valueChecks hfs h.1 h.2 hΓ (runs_valueChecks (ran_of_run hcs)) c hc
    exact htyped.subst (respects_of_carries h.1 (fun _ _ => trivial) hσ)
  formulaChecks h hΓ hr hσ c hc := by
    obtain ⟨he, hf⟩ := h
    obtain ⟨I, hI⟩ := exists_regular (he ▸ hfs)
    have htyped := (Encoding.faithful_formula (Encoding.runs_formula (ran_of_run hr))
      (knows_of_within hΓ) hf hI).typed c hc
    exact htyped.subst (respects_of_carries he (fun _ _ => trivial) hσ)
  valueCalls h _ := calls_of_callsTyped h.1 (h.2.calls _)
  formulaCalls h _ := calls_of_callsTyped h.1 (h.2.calls _)
  arguments {e name vs o callee} h _ hcallee := by
    obtain ⟨he, g, hg, -, hvs⟩ := h
    have hfind : (functions.find? fun f => f.name == name) = some g := he ▸ hg
    obtain rfl := Option.mem_unique hcallee hfind
    exact (forall₂_of_allTyped hvs).imp fun _ _ hv => ⟨he, hv⟩
  substValue h hσ := h.2.subst (respects_of_carries h.1 (fun _ => id) hσ)
  substFormula h hσ := h.2.subst (respects_of_carries h.1 (fun _ => id) hσ)
  substExpr {e m σ a} h hσ := by
    have ha : a.Typed fits e.scope .i32 := by
      cases a with
      | value v => exact h.2
      | num n => rfl
      | op o a b => exact h.2.2
    exact ha.subst (respects_of_carries h.1 (fun _ => id) hσ)
  var h := ⟨_, h, rfl⟩
  number n h := Value.Typed.number _ n h
  call _ hcallee hargs := ⟨_, hcallee, rfl, allTyped_of_forall₂ hargs⟩
  ternary hc hv hw := Value.typed_ternary hc hv hw
  update h hx hσ hb hw := keepsType_update h.1 h.2 hx hσ hb hw
  toExpr h := Value.Typed.toExpr h
  next h := Expr.Typed.toValue ⟨rfl, h, rfl⟩
  num n := rfl
  lit b := trivial
  compare c ha hb := ⟨.i32, .inr rfl, ha, hb⟩
  negate h := h.negate

/-! ### Programs -/

variable {R : Rules} {hfs : ∀ g ∈ functions, g.output.hasUnknown = false}

theorem scope_of_calls (hR : R.calls = functions) (he : e.functions = functions) :
    R.scope e = e.scope := by
  rw [Rules.scope, hR, ← he]
  rfl

theorem asks_of_accepts (hR : R.calls = functions) (he : e.functions = functions) {v : Value} {u : Ty}
    (h : R.Accepts e v t) (hu : u.bare = t) : e.functions = functions ∧ v.Typed R.bounds e.scope u.bare := by
  refine ⟨he, ?_⟩
  rw [hu, ← scope_of_calls hR he]
  exact h.1

theorem asks_of_typed (hR : R.calls = functions) (he : e.functions = functions) {f : Formula}
    (h : f.Typed R.bounds (R.scope e)) : e.functions = functions ∧ f.Typed R.bounds e.scope := by
  refine ⟨he, ?_⟩
  rw [← scope_of_calls hR he]
  exact h

theorem typed_assigns (hR : R.calls = functions) (he : e.functions = functions) {a : Assignment}
    (h : R.Assigns e a) : (typedness R.bounds functions hfs).Assigns e a := by
  obtain ⟨target, v, o⟩ := a
  obtain ⟨t, hv, htarget⟩ := h
  obtain ⟨u, -, hu⟩ := hv.1.typeOf v
  cases target with
  | wildcard o' => exact ⟨u, asks_of_accepts hR he hv hu, trivial⟩
  | name x o' =>
    obtain ⟨w, hw, hbare⟩ := htarget
    exact ⟨w, asks_of_accepts hR he hv hbare, hw⟩
  | elem shape x i o' =>
    obtain ⟨w, hw⟩ := htarget.1.known _ x (by simp [Value.freeVars, Place.freeVars])
    exact ⟨u, asks_of_accepts hR he hv hu, ⟨w, hw⟩, asks_of_accepts hR he htarget hu⟩

/-- The elements of a tuple may be bound to variables of their types. -/
theorem typed_destructures {ds : List Declaration} (ht : t.bare = .tuple ts) (hds : Declaration.Match ds ts) :
    (typedness fits functions hfs).Destructures t ds := by
  intro m v u us hv _ _ _ i d hd hname
  obtain ⟨-, hwords, htypes⟩ := hds
  have hi : i < ds.length := (List.getElem?_eq_some_iff.mp hd).1
  have htyped : v.Typed fits ⟨m, functions⟩ (.tuple ts) := ht ▸ hv
  exact Value.finds_elementOf.typed_tuple (Value.constantIndex?_int (by omega)) (htypes i d hd hname)
    htyped htyped

mutual

theorem typed_command (hR : R.calls = functions) (c : Command) {e : Env} (he : e.functions = functions)
    (h : c.WellTyped R e) : c.Obeys (typedness R.bounds functions hfs) e :=
  match c, h with
  | .declare _, _ | .noop _, _ => trivial
  | .bind d v, h => asks_of_accepts hR he h rfl
  | .bindTuple ds v o, h => by
    obtain ⟨ts, hv, hds⟩ := h
    obtain ⟨u, -, hu⟩ := hv.1.typeOf v
    exact ⟨u, asks_of_accepts hR he hv hu, typed_destructures hu hds⟩
  | .assign a, h => typed_assigns hR he h
  | .assignAll as o, h => fun a ha => typed_assigns hR he (h a ha)
  | .assert f o, h | .assume f o, h | .invariant f o, h => asks_of_typed hR he h
  | .cond bs o, h => typed_branches hR bs he h
  | .forRange i lo hi inv body o, h => by
    obtain ⟨hlo, hhi, hinv, hbody⟩ := h
    have hinner := (functions_declare e i .i32 false).trans he
    exact ⟨asks_of_accepts hR he hlo rfl, asks_of_accepts hR he hhi rfl, asks_of_typed hR hinner hinv,
      typed_block hR body hinner hbody⟩
  | .whileLoop c inv variant body o, h => by
    obtain ⟨hc, hinv, hvariant, hbody⟩ := h
    refine ⟨asks_of_typed hR he hc, asks_of_typed hR he hinv, fun a ha => ⟨he, ?_⟩,
      typed_block hR body he hbody⟩
    rw [← scope_of_calls hR he]
    exact (hvariant a ha).toValue

theorem typed_branches (hR : R.calls = functions) (bs : Branches) {e : Env} (he : e.functions = functions)
    (h : bs.WellTyped R e) : bs.Obeys (typedness R.bounds functions hfs) e :=
  match bs, h with
  | .otherwise b, h => typed_block hR b he h
  | .branch _ b rest, h =>
    ⟨asks_of_typed hR he h.1, typed_block hR b he h.2.1, typed_branches hR rest he h.2.2⟩

theorem typed_block (hR : R.calls = functions) (cs : List Command) {e : Env} (he : e.functions = functions)
    (h : Command.AllWellTyped R e cs) : Command.AllObey (typedness R.bounds functions hfs) e cs :=
  match cs, h with
  | [], _ => trivial
  | c :: cs, h => ⟨typed_command hR c he h.1, typed_block hR cs ((functions_command e c).trans he) h.2⟩

end

end Generation

end Verdict
