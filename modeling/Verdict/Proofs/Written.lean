import Verdict.Proofs.Locality
import Verdict.Reading.Programs
import Verdict.Lang.Inference
import Verdict.Lang.Scoping

/-! # Programs that are written down

A program that is read from a text has no elements of values other than variables, no changed values
and no missing ones: these are made only while obligations are generated. Its variables have names that
are not words of the language. A wildcard stands in it only for the target of an assignment or for a
target of a tuple, which need not be declared with a type. Inference fills in types and changes nothing of
this. The values that are read are also tidy: nothing is wrapped twice. -/

namespace Verdict

mutual

def Place.Written : Place → Prop
  | .name x _ => Reading.isName x = true
  | .wildcard _ => True
  | .elem _ x i _ => Reading.isName x = true ∧ i.Written

def Value.Written : Value → Prop
  | .expr e _ => e.Written
  | .formula f _ => f.Written
  | .place p _ => p.Written
  | .tuple vs _ | .array vs _ | .call _ vs _ => Value.AllWritten vs
  | .ref v _ _ | .deref v _ => v.Written
  | .unit _ => True
  | .ite c t e _ => c.Written ∧ t.Written ∧ e.Written
  | .select _ _ _ _ | .store _ _ _ _ _ | .missing => False

def Value.AllWritten : List Value → Prop
  | [] => True
  | v :: vs => v.Written ∧ Value.AllWritten vs

def Expr.Written : Expr → Prop
  | .num _ => True
  | .value v => v.Written
  | .op _ a b => a.Written ∧ b.Written

def Formula.Written : Formula → Prop
  | .lit _ => True
  | .and f g | .or f g => f.Written ∧ g.Written
  | .not f => f.Written
  | .value v => v.Written
  | .equal a b | .compare _ a b => a.Written ∧ b.Written
  | .quant _ x _ f => Reading.isName x = true ∧ f.Written

end

def Assignment.Written (a : Assignment) : Prop := a.target.Written ∧ a.value.Written

mutual

def Command.Written : Command → Prop
  | .declare d => d.name ≠ "_"
  | .bind d v => d.name ≠ "_" ∧ v.Written
  | .bindTuple _ v _ => v.Written
  | .assign a => a.Written
  | .assignAll as _ => ∀ a ∈ as, a.Written
  | .assert f _ | .assume f _ | .invariant f _ => f.Written
  | .cond bs _ => bs.Written
  | .forRange i lo hi inv body _ =>
    i ≠ "_" ∧ lo.Written ∧ hi.Written ∧ inv.Written ∧ Command.AllWritten body
  | .whileLoop c inv variant body _ =>
    c.Written ∧ inv.Written ∧ (∀ e ∈ variant, e.Written) ∧ Command.AllWritten body
  | .noop _ => True

def Branches.Written : Branches → Prop
  | .otherwise b => Command.AllWritten b
  | .branch c b rest => c.Written ∧ Command.AllWritten b ∧ rest.Written

def Command.AllWritten : List Command → Prop
  | [] => True
  | c :: cs => c.Written ∧ Command.AllWritten cs

end

/-- Whether a function can be written down. -/
structure Function.Written (f : Function) : Prop where
  inputs : ∀ d ∈ f.inputs, d.name ≠ "_"
  precondition : f.precondition.Written
  postcondition : f.postcondition.Written
  result : f.result.Written
  body : Command.AllWritten f.body

mutual

/-- Whether a place is as reading leaves it. -/
def Place.Tidy : Place → Prop
  | .name x _ => Reading.isName x = true
  | .wildcard _ => True
  | .elem _ x i _ => Reading.isName x = true ∧ i.Tidy

/-- Whether a value is as reading leaves it: no expression is wrapped in a value and the value in an expression
again, nor a formula. -/
def Value.Tidy : Value → Prop
  | .expr e _ => (∀ v, e ≠ .value v) ∧ e.Tidy
  | .formula f _ => f.Tidy
  | .place p _ => p.Tidy
  | .tuple vs _ | .array vs _ | .call _ vs _ => Value.AllTidy vs
  | .ref v _ _ | .deref v _ => v.Tidy
  | .unit _ => True
  | .ite c t e _ => c.Tidy ∧ t.Tidy ∧ e.Tidy
  | .select _ _ _ _ | .store _ _ _ _ _ | .missing => False

def Value.AllTidy : List Value → Prop
  | [] => True
  | v :: vs => v.Tidy ∧ Value.AllTidy vs

def Expr.Tidy : Expr → Prop
  | .num _ => True
  | .value v => (∀ e o, v ≠ .expr e o) ∧ v.Tidy
  | .op _ a b => a.Tidy ∧ b.Tidy

def Formula.Tidy : Formula → Prop
  | .lit _ => True
  | .and f g | .or f g => f.Tidy ∧ g.Tidy
  | .not f => f.Tidy
  | .value v => (∀ f o, v ≠ .formula f o) ∧ v.Tidy
  | .equal a b | .compare _ a b => a.Tidy ∧ b.Tidy
  | .quant _ x _ f => Reading.isName x = true ∧ f.Tidy

end

variable {v : Value}

theorem Value.allTidy_iff {vs : List Value} : Value.AllTidy vs ↔ ∀ v ∈ vs, v.Tidy := by
  induction vs with
  | nil => simp [Value.AllTidy]
  | cons v vs ih => simp [Value.AllTidy, ih]

theorem Value.Tidy.toExpr (h : v.Tidy) : v.toExpr.Tidy := by
  cases v with
  | expr e o => exact h.2
  | _ => exact ⟨by simp, h⟩

theorem Value.Tidy.toFormula (h : v.Tidy) : v.toFormula.Tidy := by
  cases v with
  | formula f o => exact h
  | _ => exact ⟨by simp, h⟩

theorem Formula.Tidy.negate {f : Formula} (h : f.Tidy) : f.negate.Tidy := by
  cases f <;> exact h

mutual

theorem Place.Tidy.written (p : Place) (h : p.Tidy) : p.Written :=
  match p, h with
  | .name _ _, h => h
  | .wildcard _, _ => trivial
  | .elem _ _ i _, h => ⟨h.1, h.2.written i⟩

/-- What is as reading leaves it is written down. -/
theorem Value.Tidy.written (v : Value) (h : v.Tidy) : v.Written :=
  match v, h with
  | .expr e _, h => h.2.written e
  | .formula f _, h => Formula.Tidy.written f h
  | .place p _, h => Place.Tidy.written p h
  | .tuple vs _, h | .array vs _, h | .call _ vs _, h => Value.AllTidy.written vs h
  | .ref v _ _, h | .deref v _, h => Value.Tidy.written v h
  | .unit _, _ => trivial
  | .ite c t e _, h => ⟨h.1.written c, h.2.1.written t, h.2.2.written e⟩

theorem Value.AllTidy.written (vs : List Value) (h : Value.AllTidy vs) : Value.AllWritten vs :=
  match vs, h with
  | [], _ => trivial
  | v :: vs, h => ⟨h.1.written v, h.2.written vs⟩

theorem Expr.Tidy.written (e : Expr) (h : e.Tidy) : e.Written :=
  match e, h with
  | .num _, _ => trivial
  | .value v, h => h.2.written v
  | .op _ a b, h => ⟨h.1.written a, h.2.written b⟩

theorem Formula.Tidy.written (f : Formula) (h : f.Tidy) : f.Written :=
  match f, h with
  | .lit _, _ => trivial
  | .and f g, h | .or f g, h => ⟨h.1.written f, h.2.written g⟩
  | .not f, h => Formula.Tidy.written f h
  | .value v, h => h.2.written v
  | .equal a b, h | .compare _ a b, h => ⟨h.1.written a, h.2.written b⟩
  | .quant _ _ _ f, h => ⟨h.1, h.2.written f⟩

end

theorem Value.Written.toExpr (h : v.Written) : v.toExpr.Written := by
  cases v <;> exact h

theorem Value.Written.toFormula (h : v.Written) : v.toFormula.Written := by
  cases v <;> exact h

theorem Value.allWritten_iff {vs : List Value} : Value.AllWritten vs ↔ ∀ v ∈ vs, v.Written := by
  induction vs with
  | nil => simp [Value.AllWritten]
  | cons v vs ih => simp [Value.AllWritten, ih]

namespace Reading

variable {α β : Type} {s : Span} {t : STree} {vs : List Value} {head x : String}

theorem of_bind {m : Read α} {k : α → Read β} {b : β} (h : (m >>= k) = .ok b) :
    ∃ a, m = .ok a ∧ k a = .ok b := by
  cases m with
  | error e => cases h
  | ok a => exact ⟨a, rfl, h⟩

theorem of_mapM {f : α → Read β} {P : β → Prop} (hf : ∀ a b, f a = .ok b → P b) :
    ∀ {as : List α} {bs : List β}, as.mapM f = .ok bs → ∀ b ∈ bs, P b := by
  intro as
  induction as with
  | nil =>
    rintro bs h b hb
    cases h
    cases hb
  | cons a as ih =>
    intro bs h b hb
    rw [List.mapM_cons] at h
    obtain ⟨b₀, h₀, h⟩ := of_bind h
    obtain ⟨bs₀, h₁, h⟩ := of_bind h
    cases h
    rcases List.mem_cons.mp hb with rfl | hb
    · exact hf a b h₀
    · exact ih h₁ b hb

/-! ### Values -/

theorem tidy_symbolValue {x : String} {v : Value} (h : symbolValue s x = .ok v) : v.Tidy := by
  unfold symbolValue at h
  split at h
  · cases h
    trivial
  · split at h
    · cases h
      trivial
    · split at h
      · cases h
        exact ⟨by simp, trivial⟩
      · split at h <;> cases h
        next hx => exact hx

/-- Operations on values are operations, whatever is in front of them. -/
theorem tidy_foldl_op {o : Operator} {e : Expr} (hvs : ∀ v ∈ vs, v.Tidy) (he : e.Tidy)
    (hne : ∀ v, e ≠ .value v) :
    (∀ v, vs.foldl (fun e w => .op o e w.toExpr) e ≠ .value v) ∧
      (vs.foldl (fun e w => .op o e w.toExpr) e).Tidy := by
  induction vs generalizing e with
  | nil => exact ⟨hne, he⟩
  | cons v vs ih =>
    exact ih (fun w hw => hvs w (List.mem_cons_of_mem v hw)) ⟨he, (hvs v List.mem_cons_self).toExpr⟩ (by simp)

theorem tidy_arithmetic {o : Operator} (h : ∀ v ∈ vs, v.Tidy) : (arithmetic o s vs).Tidy := by
  match vs with
  | [] => exact ⟨by simp, trivial⟩
  | [v] =>
    have hv := h v List.mem_cons_self
    cases o with
    | mul => exact hv
    | _ => exact ⟨by simp, trivial, hv.toExpr⟩
  | v :: w :: vs =>
    exact tidy_foldl_op (e := .op o v.toExpr w.toExpr) (fun u hu => h u (by simp [hu]))
      ⟨(h v (by simp)).toExpr, (h w (by simp)).toExpr⟩ (by simp)

theorem tidy_logical {join : Formula → Formula → Formula} {neutral : Bool}
    (hjoin : ∀ f g, f.Tidy → g.Tidy → (join f g).Tidy) (h : ∀ v ∈ vs, v.Tidy) :
    (logical join neutral s vs).Tidy := by
  match vs with
  | [] => trivial
  | v :: vs =>
    have hfold : (vs.foldl (fun f w => join f w.toFormula) v.toFormula).Tidy :=
      List.foldlRecOn vs _ (h v List.mem_cons_self).toFormula fun f hf w hw =>
        hjoin f _ hf (h w (List.mem_cons_of_mem v hw)).toFormula
    simp only [logical]
    split
    · next w hw =>
      rw [hw] at hfold
      exact hfold.2
    · exact hfold

theorem tidy_apply {head : String} (h : ∀ v ∈ vs, v.Tidy) : (apply s head vs).Tidy := by
  unfold apply
  split
  · exact tidy_arithmetic h
  · next v w _ hr =>
    have hv := (h v (by simp)).toExpr
    have hw := (h w (by simp)).toExpr
    unfold relation? at hr
    split at hr <;> cases hr <;> exact ⟨hv, hw⟩
  · split
    · exact tidy_logical (fun _ _ hf hg => ⟨hf, hg⟩) h
    · exact tidy_logical (fun _ _ hf hg => ⟨hf, hg⟩) h
    · exact Value.allTidy_iff.mpr h
    · next v _ _ => exact (h v (by simp)).toFormula
    · next v w _ _ =>
      exact Formula.implies_of (P := Formula.Tidy) trivial (fun _ _ hf hg => ⟨hf, hg⟩)
        (h v (by simp)).toFormula.negate (h w (by simp)).toFormula
    · next v _ _ => exact h v (by simp)
    · next v _ _ => exact h v (by simp)
    · next c v w _ _ => exact ⟨(h c (by simp)).toFormula, h v (by simp), h w (by simp)⟩
    · exact Value.allTidy_iff.mpr h

theorem exists_elem {base : String} {index : Value} {o : Origin} {p : Place}
    (h : element head base index s o = .ok p) : ∃ shape, p = .elem shape base index o := by
  unfold element at h
  split at h
  · cases h
    exact ⟨_, rfl⟩
  · split at h <;> cases h
    exact ⟨_, rfl⟩

theorem isName_of_baseName (h : baseName t = .ok x) : isName x = true := by
  unfold baseName at h
  split at h
  · split at h <;> cases h
    next hx => exact hx
  · cases h

variable {unitAt : Span → Origin}

/-- Whether a property of values is passed on by each step of reading. -/
structure Hereditary (P : Value → Prop) : Prop where
  symbol : ∀ {s : Span} {x : String} {v : Value}, symbolValue s x = .ok v → P v
  unit : ∀ o, P (.unit o)
  call : ∀ f {vs : List Value} o, (∀ v ∈ vs, P v) → P (.call f vs o)
  quant : ∀ q {x : String} t {v : Value} o, isName x = true → P v → P (.formula (.quant q x t v.toFormula) o)
  elem : ∀ shape {x : String} {v : Value} o₁ o₂, isName x = true → P v → P (.place (.elem shape x v o₁) o₂)
  apply : ∀ s head {vs : List Value}, (∀ v ∈ vs, P v) → P (apply s head vs)

mutual

/-- All values that are read have a property that reading passes on. -/
theorem Hereditary.value {P : Value → Prop} (hP : Hereditary P) : ∀ (t : STree) {v : Value},
    value unitAt t = .ok v → P v
  | .symbol s x, v, h => hP.symbol h
  | .list s [], v, h => by
    cases h
    exact hP.unit _
  | .list s (.list _ _ :: _), v, h => by
    cases h
  | .list s (.symbol _ head :: args), v, h => by
    unfold Reading.value at h
    split at h
    · split at h
      · next rest =>
        obtain ⟨vs, hvs, h⟩ := of_bind h
        cases h
        exact hP.call _ _ (hP.values rest hvs)
      · cases h
    · split at h
      · split at h
        · next a =>
          split at h
          · next hx =>
            obtain ⟨f, hf, h⟩ := of_bind h
            cases h
            exact hP.quant _ _ _ hx (hP.value a hf)
          · cases h
        · next t a =>
          split at h
          · next hx =>
            obtain ⟨t, -, h⟩ := of_bind h
            obtain ⟨f, hf, h⟩ := of_bind h
            cases h
            exact hP.quant _ _ _ hx (hP.value a hf)
          · cases h
        · cases h
      · split at h
        · split at h
          · next b i =>
            obtain ⟨x, hx, h⟩ := of_bind h
            obtain ⟨w, hw, h⟩ := of_bind h
            obtain ⟨p, hp, h⟩ := of_bind h
            cases h
            obtain ⟨shape, rfl⟩ := exists_elem hp
            exact hP.elem _ _ _ (isName_of_baseName hx) (hP.value i hw)
          · cases h
        · split at h
          · cases h
          · obtain ⟨vs, hvs, h⟩ := of_bind h
            cases h
            exact hP.apply _ _ (hP.values args hvs)

theorem Hereditary.values {P : Value → Prop} (hP : Hereditary P) : ∀ (ts : List STree) {vs : List Value},
    values unitAt ts = .ok vs → ∀ v ∈ vs, P v
  | [], vs, h => by
    cases h
    exact fun v hv => nomatch hv
  | t :: ts, vs, h => by
    obtain ⟨v, hv, h⟩ := of_bind h
    obtain ⟨vs', hvs, h⟩ := of_bind h
    cases h
    intro w hw
    rcases List.mem_cons.mp hw with rfl | hw
    · exact hP.value t hv
    · exact hP.values ts hvs w hw

end

theorem hereditary_tidy : Hereditary Value.Tidy where
  symbol := tidy_symbolValue
  unit _ := trivial
  call _ _ _ h := Value.allTidy_iff.mpr h
  quant _ _ _ _ _ hx hv := ⟨hx, hv.toFormula⟩
  elem _ _ _ _ _ hx hv := ⟨hx, hv⟩
  apply _ _ _ h := tidy_apply h

theorem written_value (t : STree) (h : value unitAt t = .ok v) : v.Written :=
  (hereditary_tidy.value t h).written v

theorem written_formula {f : Formula} (h : formula unitAt t = .ok f) : f.Written := by
  obtain ⟨v, hv, h⟩ := of_bind h
  cases h
  exact (written_value t hv).toFormula

theorem written_place {p : Place} (h : place unitAt t = .ok p) : p.Written := by
  unfold place at h
  split at h
  · split at h
    · cases h
      trivial
    · split at h <;> cases h
      next hx => exact hx
  · split at h
    · obtain ⟨x, hx, h⟩ := of_bind h
      obtain ⟨v, hv, h⟩ := of_bind h
      obtain ⟨shape, rfl⟩ := exists_elem h
      exact ⟨isName_of_baseName hx, written_value _ hv⟩
    · cases h
  · cases h

/-! ### Commands -/

theorem ne_wildcard_of_isName (h : isName x = true) : x ≠ "_" := by
  rintro rfl
  revert h
  decide

theorem written_assignment {target v : STree} {a : Assignment} (h : assignment unitAt s target v = .ok a) :
    a.Written := by
  obtain ⟨p, hp, h⟩ := of_bind h
  obtain ⟨w, hw, h⟩ := of_bind h
  cases h
  exact ⟨written_place hp, written_value v hw⟩

theorem written_pair {a : Assignment} (h : pair unitAt t = .ok a) : a.Written := by
  unfold pair at h
  split at h
  · exact written_assignment h
  · cases h

theorem written_binding {mutable : Bool} {args : List STree} {c : Command}
    (h : binding unitAt s mutable args = .ok c) : c.Written := by
  unfold binding at h
  split at h
  · split at h
    · next hx =>
      obtain ⟨t, -, h⟩ := of_bind h
      cases h
      exact ne_wildcard_of_isName hx
    · cases h
  · split at h
    · next hx =>
      obtain ⟨t, -, h⟩ := of_bind h
      obtain ⟨v, hv, h⟩ := of_bind h
      cases h
      exact ⟨ne_wildcard_of_isName hx, written_value _ hv⟩
    · cases h
  · cases h

theorem written_simple {args : List STree} {c : Command} (h : simple unitAt s head args = .ok c) :
    c.Written := by
  unfold simple at h
  split at h
  · exact written_binding h
  · exact written_binding h
  · obtain ⟨ds, -, h⟩ := of_bind h
    obtain ⟨v, hv, h⟩ := of_bind h
    cases h
    exact written_value _ hv
  · cases h
  · obtain ⟨a, ha, h⟩ := of_bind h
    cases h
    exact written_assignment ha
  · cases h
  · cases h
  · obtain ⟨as, has, h⟩ := of_bind h
    cases h
    exact of_mapM (fun _ _ => written_pair) has
  · obtain ⟨f, hf, h⟩ := of_bind h
    cases h
    exact written_formula hf
  · cases h
  · obtain ⟨f, hf, h⟩ := of_bind h
    cases h
    exact written_formula hf
  · cases h
  · obtain ⟨f, hf, h⟩ := of_bind h
    cases h
    exact written_formula hf
  · cases h
  · cases h
    trivial
  · cases h
  · cases h

/-- What can be written down of a loop. -/
structure LoopParts.Written (parts : LoopParts) : Prop where
  invariant : parts.invariant.Written
  variant : ∀ e ∈ parts.variant, e.Written
  body : Command.AllWritten parts.body

theorem written_conj {fs : List Formula} (h : ∀ f ∈ fs, f.Written) : (Formula.conj fs).Written :=
  Formula.conj_of (P := Formula.Written) trivial (fun _ _ hf hg => ⟨hf, hg⟩) h

mutual

theorem written_command : ∀ (t : STree) {c : Command}, command unitAt t = .ok c → c.Written
  | .symbol s x, c, h => by
    cases h
  | .list s [], c, h => by
    cases h
  | .list s (.list _ _ :: _), c, h => by
    cases h
  | .list s (.symbol _ head :: args), c, h => by
    unfold command at h
    split at h
    · obtain ⟨bs, hbs, h⟩ := of_bind h
      split at h
      · cases h
      · cases h
        exact written_branches args hbs
    · split at h
      · split at h
        · cases h
        · next t rest =>
          obtain ⟨c, hc, h⟩ := of_bind h
          obtain ⟨parts, hparts, h⟩ := of_bind h
          cases h
          have hloop := written_loopParts rest hparts (fun f hf => nomatch hf) fun e he => nomatch he
          exact ⟨written_formula hc, hloop.invariant, hloop.variant, hloop.body⟩
      · split at h
        · split at h
          · next lo hi rest =>
            split at h
            · next hx =>
              obtain ⟨l, hl, h⟩ := of_bind h
              obtain ⟨u, hu, h⟩ := of_bind h
              obtain ⟨parts, hparts, h⟩ := of_bind h
              cases h
              have hloop := written_loopParts rest hparts (fun f hf => nomatch hf)
                fun e he => nomatch he
              exact ⟨ne_wildcard_of_isName hx, written_value lo hl, written_value hi hu,
                hloop.invariant, hloop.body⟩
            · cases h
          · cases h
        · exact written_simple h

theorem written_block : ∀ (ts : List STree) {cs : List Command}, block unitAt ts = .ok cs →
    Command.AllWritten cs
  | [], cs, h => by
    cases h
    trivial
  | t :: ts, cs, h => by
    obtain ⟨c, hc, h⟩ := of_bind h
    obtain ⟨cs', hcs, h⟩ := of_bind h
    cases h
    exact ⟨written_command t hc, written_block ts hcs⟩

theorem written_branches : ∀ (ts : List STree) {bs : Branches}, branches unitAt ts = .ok bs →
    bs.Written
  | [], bs, h => by
    cases h
    trivial
  | .symbol s x :: _, bs, h => by
    cases h
  | .list s [] :: _, bs, h => by
    cases h
  | .list s (c :: body) :: rest, bs, h => by
    unfold branches at h
    split at h
    · obtain ⟨b, hb, h⟩ := of_bind h
      cases h
      exact written_block body hb
    · obtain ⟨f, hf, h⟩ := of_bind h
      obtain ⟨b, hb, h⟩ := of_bind h
      obtain ⟨bs', hbs, h⟩ := of_bind h
      cases h
      exact ⟨written_formula hf, written_block body hb, written_branches rest hbs⟩

theorem written_loopParts : ∀ (ts : List STree) {range : Option Span} {invariants : List Formula}
    {variant : Option Expr} {parts : LoopParts},
    loopParts unitAt range invariants variant ts = .ok parts → (∀ f ∈ invariants, f.Written) →
    (∀ e ∈ variant, e.Written) → parts.Written
  | [], range, invariants, variant, parts, h, hinv, hvar => by
    obtain ⟨-, -, h⟩ := of_bind h
    cases h
    exact ⟨written_conj hinv, hvar, trivial⟩
  | t :: ts, range, invariants, variant, parts, h, hinv, hvar => by
    unfold loopParts at h
    split at h
    · obtain ⟨f, hf, h⟩ := of_bind h
      refine written_loopParts ts h (fun g hg => ?_) hvar
      rcases List.mem_append.mp hg with hg | hg
      · exact hinv g hg
      · exact List.mem_singleton.mp hg ▸ written_formula hf
    · obtain ⟨v, hv, h⟩ := of_bind h
      refine written_loopParts ts h hinv fun e he => ?_
      cases he
      exact (written_value _ hv).toExpr
    · obtain ⟨-, -, h⟩ := of_bind h
      obtain ⟨c, hc, h⟩ := of_bind h
      obtain ⟨cs, hcs, h⟩ := of_bind h
      cases h
      exact ⟨written_conj hinv, hvar, written_command t hc, written_block ts hcs⟩

end

/-! ### Programs -/

theorem ne_wildcard_of_declaration {d : Declaration} (h : declaration t = .ok d) : d.name ≠ "_" := by
  have htyped : ∀ {s : Span} {mutable : Bool} {ts : List STree}, typedName s mutable ts = .ok d →
      d.name ≠ "_" := by
    intro s mutable ts h
    unfold typedName at h
    split at h
    · split at h
      · next hx =>
        obtain ⟨t, -, h⟩ := of_bind h
        cases h
        exact ne_wildcard_of_isName hx
      · cases h
    · cases h
  unfold declaration at h
  split at h
  · exact htyped h
  · cases h
  · exact htyped h
  · cases h

/-- What can be written down of the clauses of a function. -/
structure Clauses.Written (parts : Clauses) : Prop where
  precondition : parts.precondition.Written
  postcondition : parts.postcondition.Written
  result : parts.result.Written
  body : Command.AllWritten parts.body

theorem of_map {m : Read α} {f : α → β} {b : β} (h : m.map f = .ok b) : ∃ a, m = .ok a ∧ b = f a := by
  cases m with
  | error e => cases h
  | ok a => exact ⟨a, rfl, (Except.ok.inj h).symm⟩

theorem written_clauses (ts : List STree) {seen : List String} {parts parts' : Clauses}
    (h : clauses unitAt seen parts ts = .ok parts') (hp : parts.Written) : parts'.Written :=
  match ts, h with
  | [], h => by
    cases h
    exact hp
  | .symbol s x :: _, h => by
    cases h
  | .list s ts :: rest, h => by
    unfold clauses at h
    dsimp only at h
    split at h
    · cases h
    · split at h <;> obtain ⟨next, hnext, h⟩ := of_bind h <;> refine written_clauses rest h ?_
      · obtain ⟨f, hf, rfl⟩ := of_map hnext
        exact ⟨written_formula hf, hp.postcondition, hp.result, hp.body⟩
      · obtain ⟨f, hf, rfl⟩ := of_map hnext
        exact ⟨hp.precondition, written_formula hf, hp.result, hp.body⟩
      · obtain ⟨v, hv, rfl⟩ := of_map hnext
        exact ⟨hp.precondition, hp.postcondition, written_value _ hv, hp.body⟩
      · obtain ⟨cs, hcs, rfl⟩ := of_map hnext
        exact ⟨hp.precondition, hp.postcondition, hp.result, written_block _ hcs⟩
      · cases hnext

theorem written_function {default : Value} (hdefault : default.Written) {f : Function}
    (h : function unitAt default t = .ok f) : f.Written := by
  unfold function at h
  split at h
  · obtain ⟨ins, hins, h⟩ := of_bind h
    obtain ⟨out, -, h⟩ := of_bind h
    obtain ⟨parts, hparts, h⟩ := of_bind h
    cases h
    have hp := written_clauses _ hparts ⟨trivial, trivial, hdefault, trivial⟩
    refine ⟨?_, hp.precondition, hp.postcondition, hp.result, hp.body⟩
    unfold inputs at hins
    split at hins
    · cases hins
    · exact of_mapM (fun _ _ => ne_wildcard_of_declaration) hins
  · split at h <;> cases h
  · cases h

theorem written_functions {default : Value} (hdefault : default.Written) (ts : List STree) :
    ∀ f ∈ (functions unitAt default ts).1, f.Written := by
  induction ts with
  | nil => exact fun f hf => nomatch hf
  | cons t ts ih =>
    simp only [functions]
    split
    · next f hf =>
      intro g hg
      rcases List.mem_cons.mp hg with rfl | hg
      · exact written_function hdefault hf
      · exact ih g hg
    · exact ih

end Reading

/-- What is read can be written down. -/
theorem Program.written_of_read {file : SourceFile} {p : Program}
    (h : (Program.read file).program = some p) : ∀ f ∈ p.functions, f.Written := by
  unfold Program.read at h
  split at h
  · cases h
  · next trees _ =>
    cases h
    have hunit : ∀ o : Origin, (Value.unit o).Written := fun _ => trivial
    exact Reading.written_functions (hunit _) trees

/-! ### Inference -/

namespace Inference

theorem name_refine (d : Declaration) (t : Ty) : (d.refine t).name = d.name := by
  unfold Declaration.refine
  split_ifs <;> rfl

theorem name_bind (s : Scope) (d : Declaration) (v : Value) : (bind s d v).name = d.name := by
  unfold bind
  split
  · exact name_refine d _
  · rfl

mutual

theorem written_command (c : Command) {function : String} {s : Scope} (h : c.Written) :
    (command function s c).node.Written :=
  match c, h with
  | .declare d, h | .assign _, h | .assignAll _ _, h | .assert _ _, h | .assume _ _, h
  | .invariant _ _, h | .noop _, h => h
  | .bind d v, h => ⟨(name_bind s d v).symm ▸ h.1, h.2⟩
  | .bindTuple ds v o, h => by
    simp only [command, bindTuple]
    split
    · exact h
    · split
      · split_ifs <;> exact h
      · exact h
  | .cond bs o, h => written_branches bs h
  | .forRange i lo hi inv body o, h => ⟨h.1, h.2.1, h.2.2.1, h.2.2.2.1, written_block body h.2.2.2.2⟩
  | .whileLoop c inv variant body o, h => ⟨h.1, h.2.1, h.2.2.1, written_block body h.2.2.2⟩

theorem written_branches (bs : Branches) {function : String} {s : Scope} (h : bs.Written) :
    (branches function s bs).node.Written :=
  match bs, h with
  | .otherwise b, h => written_block b h
  | .branch _ b rest, h => ⟨h.1, written_block b h.2.1, written_branches rest h.2.2⟩

theorem written_block (cs : List Command) {function : String} {s : Scope} (h : Command.AllWritten cs) :
    Command.AllWritten (block function s cs).node :=
  match cs, h with
  | [], h => by
    trivial
  | c :: cs, h => ⟨written_command c h.1, written_block cs h.2⟩

end

end Inference

/-- Inference keeps a program one that can be written down. -/
theorem Program.written_infer {p : Program} (h : ∀ f ∈ p.functions, f.Written) :
    ∀ f ∈ p.infer.1.functions, f.Written := by
  intro g hg
  simp only [infer, List.mem_map] at hg
  obtain ⟨_, ⟨f, hf, rfl⟩, rfl⟩ := hg
  have hw := h f hf
  exact ⟨hw.inputs, hw.precondition, hw.postcondition, hw.result, Inference.written_block _ hw.body⟩

/-- A function of a text that is run. -/
theorem Program.exists_of_read (file : SourceFile) (P : Program → Function → Bool)
    (h : ((Program.read file).program.any fun p => p.validate.isEmpty && p.functions.any (P p)) = true) :
    ∃ p f, (Program.read file).program = some p ∧ p.validate = [] ∧ f ∈ p.functions ∧ P p f = true := by
  obtain ⟨p, hp, h⟩ := (Option.any_eq_true _ _).mp h
  rw [Bool.and_eq_true, List.isEmpty_iff, List.any_eq_true] at h
  obtain ⟨hvalid, f, hf, h⟩ := h
  exact ⟨p, f, hp, hvalid, hf, h⟩

end Verdict
