import Verdict.Proofs.DisciplinedRuns

/-! # Obligations about symbolic constants only

A program has three notions of scope: the environments of the scoping rules, the frames, and the
variables of a symbolic state. They agree wherever generation gets to. So no command of a function that
can be written down and obeys the rules is out of scope, and no variable of a program is left in an
obligation: all its free variables are symbolic constants (`Program.closed_obligations`).

The discipline behind it asks that nodes obey the scoping rules, and promises that what is made of them
mentions only symbolic constants. -/

namespace Verdict

open Scoping (Env)

/-- Whether the free variables of an obligation are among some names. -/
def Obligation.In (o : Obligation) (K : String → Prop) : Prop :=
  o.goal.freeVars.In K ∧ ∀ f ∈ o.assumptions, f.freeVars.In K

theorem Obligation.In.mono {o : Obligation} {K L : String → Prop} (h : o.In K) (hKL : ∀ x, K x → L x) :
    o.In L := ⟨h.1.mono hKL, fun f hf => (h.2 f hf).mono hKL⟩

/-- Whether a map has an entry for a name. -/
def NameMap.Has {α : Type} (m : NameMap α) (x : String) : Prop := ∃ a, m.get? x = some a

theorem NameMap.Under.has {α : Type} {m m' : NameMap α} (h : m.Under m') (x : String) (hx : m.Has x) :
    m'.Has x := hx.imp fun a ha => h x a ha

/-! ### Numbering -/

namespace Value

mutual

/-- A value keeps its free variables when it is numbered. -/
theorem freeVars_number (v : Value) (n : ℕ) : (v.number.run n).1.freeVars = v.freeVars :=
  match v with
  | .expr _ none | .formula _ none | .place _ none | .call _ _ none | .ite _ _ _ none
  | .select _ _ _ none => rfl
  | .tuple vs none | .array vs none => freeVarsAll_numberAll vs n
  | .ref v _ none | .deref v none => freeVars_number v n
  | .store _ b i e none => by
    have hb := freeVars_number b n
    have he := freeVars_number e (b.number.run n).2
    change ((b.number.run n).1.freeVars.union i.freeVars).union
      (e.number.run (b.number.run n).2).1.freeVars = _
    rw [hb, he]
    rfl
  | .expr _ (some _) | .formula _ (some _) | .place _ (some _) | .call _ _ (some _)
  | .ite _ _ _ (some _) | .select _ _ _ (some _) | .tuple _ (some _) | .array _ (some _)
  | .ref _ _ (some _) | .deref _ (some _) | .store _ _ _ _ (some _) | .unit _ | .missing => rfl

theorem freeVarsAll_numberAll (vs : List Value) (n : ℕ) :
    freeVarsAll ((numberAll vs).run n).1 = freeVarsAll vs :=
  match vs with
  | [] => rfl
  | v :: vs => by
    have hv := freeVars_number v n
    have hvs := freeVarsAll_numberAll vs (v.number.run n).2
    change (v.number.run n).1.freeVars.union (freeVarsAll ((numberAll vs).run (v.number.run n).2).1) = _
    rw [hv, hvs]
    rfl

end

end Value

/-! ### What obeys the scoping rules -/

namespace Generation

open Scoping

variable {e : Env} {K : String → Prop} {vs : List Value}

/-- What reads only variables of an environment mentions only constants after substitution. -/
theorem maps_of_carries {m : NameMap Ty} {σ : Substitution} {xs : Names} (hxs : xs.In e.Knows)
    (hK : ∀ x ∈ xs.members, K x) (h : σ.Carries (fun _ v => v.freeVars.In m.Has) e K) : σ.Maps xs m.Has := by
  intro x hx
  obtain ⟨t, ht⟩ := (hxs x hx).type?
  obtain ⟨v, hv, hclosed⟩ := h x (hK x hx) t ht
  rwa [Substitution.image, hv]

theorem ran_of_run {α : Type} {m : Encoding.EncodeM α} {a : α} (h : (m.run.run default).1 = .ok a) :
    Encoding.Ran m default a (m.run.run default).2 := Prod.ext h rfl

theorem allIn_valueChecks {env : Encoding.Env} {v : Value} {cs : List Check} (h : RunChecks env v cs)
    (hK : v.freeVars.In K) : Check.AllIn cs K := by
  cases h with
  | unit => exact Check.allIn_nil
  | tuple _ _ hr => exact Encoding.allIn_tuple hr hK
  | value _ _ hr => exact Encoding.allIn_value hr hK

/-- Whether a value can be written down and obeys the rules. -/
def ReadsWritten (e : Env) (v : Value) : Prop := v.Written ∧ readsValue e v = []

theorem forall₂_readsWritten {ts : List Ty} (hlen : ts.length = vs.length) (hw : Value.AllWritten vs)
    (h : readsValues e vs = []) : List.Forall₂ (fun _ => ReadsWritten e) ts vs := by
  induction vs generalizing ts with
  | nil =>
    obtain rfl := List.length_eq_zero_iff.mp hlen
    exact .nil
  | cons v vs ih =>
    obtain ⟨t, ts, rfl⟩ := List.exists_cons_of_length_eq_add_one hlen
    simp only [readsValues, List.append_eq_nil_iff] at h
    exact .cons ⟨hw.1, h.1⟩ (ih (Nat.succ.inj hlen) hw.2 h.2)

theorem calls_of_nodeReads {ns : List Node} (hns : ∀ n ∈ ns, NodeReads e n) :
    ∀ c ∈ ns.filterMap call?, ReadsWritten e (.call c.function c.args c.origin) := by
  intro c hc
  obtain ⟨n, hn, hc⟩ := List.mem_filterMap.mp hc
  unfold call? at hc
  split at hc
  · obtain rfl := Option.some_inj.mp hc
    obtain ⟨hreads, hw⟩ := hns _ hn
    exact ⟨hw, hreads⟩
  · cases hc

/-- The arguments of a call obey the rules as the call does. -/
theorem arguments_of_readsWritten {functions : List Function} {name : String} {o : Origin} {callee : Function}
    (h : ReadsWritten e (.call name vs o)) (he : e.functions = functions)
    (hcallee : (functions.find? fun f => f.name == name) = some callee) :
    List.Forall₂ (fun _ => ReadsWritten e) (callee.inputs.map Declaration.type) vs := by
  obtain ⟨hw, hreads⟩ := h
  simp only [readsValue, List.append_eq_nil_iff, readCall, he, hcallee] at hreads
  refine forall₂_readsWritten ?_ hw hreads.2
  by_contra hlen
  exact absurd hreads.1 (by simp_all)

theorem in_freeVarsAll_of_forall₂ {ts : List Ty} (h : List.Forall₂ (fun _ v => v.freeVars.In K) ts vs) :
    (Value.freeVarsAll vs).In K := by
  induction h with
  | nil => exact SortedSet.in_empty
  | cons hv _ ih => exact SortedSet.in_union.mpr ⟨hv, ih⟩

/-- Nodes obey the scoping rules and can be written down. What is made of them mentions only symbolic
constants. -/
def closedness (functions : List Function) : Discipline functions where
  asksValue e _ v := ReadsWritten e v
  asksFormula e f := f.Written ∧ readsFormula e f = []
  hasValue e _ v := ReadsWritten e v
  hasFormula e f := f.Written ∧ readsFormula e f = []
  written := True
  keepsValue m _ v := v.freeVars.In m.Has
  keepsFormula m f := f.freeVars.In m.Has
  keepsExpr m a := a.freeVars.In m.Has
  keepsEntry m v := v.freeVars.In m.Has
  growValue h hv := hv.mono h.has
  growFormula h hf := hf.mono h.has
  growExpr h ha := ha.mono h.has
  passValue h _ _ := h
  passFormula h _ _ := h
  substValue h hσ := Value.in_subst (maps_of_carries (in_of_readsValue _ h.2) (fun _ => id) hσ)
  substFormula h hσ := Formula.in_subst (maps_of_carries (in_of_readsFormula _ h.2) (fun _ => id) hσ)
  substExpr {e m σ a} h hσ := by
    have hreads : readsExpr e a = [] := by cases a <;> exact h.2
    exact Expr.in_subst (maps_of_carries (in_of_readsExpr a hreads) (fun _ => id) hσ)
  valueChecks h _ hcs hσ c hc := Formula.in_subst
    (maps_of_carries (allIn_valueChecks (runs_valueChecks (ran_of_run hcs)) (in_of_readsValue _ h.2) c hc)
      (fun _ _ => trivial) hσ)
  formulaChecks h _ hr hσ c hc := Formula.in_subst
    (maps_of_carries (Encoding.allIn_formula (Encoding.runs_formula (ran_of_run hr))
      (in_of_readsFormula _ h.2) c hc) (fun _ _ => trivial) hσ)
  valueCalls h _ c hc _ _ := calls_of_nodeReads (visit_value h.1 h.2) c hc
  formulaCalls h _ c hc _ _ := calls_of_nodeReads (visit_formula h.1 h.2) c hc
  arguments h he hcallee := arguments_of_readsWritten h he hcallee
  var {m x t} h := by
    rw [Value.freeVars_var, SortedSet.in_single]
    exact ⟨t, h⟩
  number n h := (Value.freeVars_number _ n).symm ▸ h
  call _ _ h := in_freeVarsAll_of_forall₂ h
  ternary hc hv hw := Value.in_ternary hc hv hw
  update {e m σ shape x i o t u b w} h _ hσ hb hw := by
    have hindex := in_of_readsPlace _ h.2
    simp only [Place.freeVars, SortedSet.in_union] at hindex
    exact Value.in_update hb
      (Value.in_substNonempty i (maps_of_carries hindex.2 (fun _ => id) hσ)) hw
  toExpr h := by rwa [Value.freeVars_toExpr]
  next h := by
    rw [Expr.freeVars_toValue]
    simp only [Expr.freeVars, SortedSet.in_union]
    exact ⟨h, SortedSet.in_empty⟩
  num n := SortedSet.in_empty
  lit b := SortedSet.in_empty
  compare c ha hb := by
    simp only [Formula.freeVars, SortedSet.in_union]
    exact ⟨ha, hb⟩
  negate {m f} h := by rwa [Formula.freeVars_negate]
  growEntry h hv := hv.mono h.has
  entry := id
  missing := SortedSet.in_empty
  numberEntry n h := (Value.freeVars_number _ n).symm ▸ h
  ternaryEntry hc hv hw := Value.in_ternary hc hv hw
  nextEntry h := by
    rw [Expr.freeVars_toValue]
    simp only [Expr.freeVars, SortedSet.in_union, Value.freeVars_toExpr]
    exact ⟨h, SortedSet.in_empty⟩

variable {functions : List Function}

theorem closed_assigns {a : Assignment} {o : Origin} (hw : a.Written) (hreads : readsValue e a.value = [])
    (hwrites : writes e o a.target = []) : (closedness functions).Assigns e a := by
  obtain ⟨target, v, o'⟩ := a
  cases target with
  | wildcard o'' => exact ⟨.i32, ⟨hw.2, hreads⟩, trivial⟩
  | name x o'' =>
    obtain ⟨t, ht⟩ := (knows_of_writes hwrites (by simp)).2.1.type?
    exact ⟨t, ⟨hw.2, hreads⟩, ht⟩
  | elem shape x i o'' =>
    obtain ⟨hplace, hknown, -⟩ := knows_of_writes hwrites (by simp)
    exact ⟨.i32, ⟨hw.2, hreads⟩, hknown.type?, hw.1, hplace⟩

mutual

theorem closed_command : ∀ (c : Command) {e : Env}, c.Written → (Scoping.command e c).2 = [] →
    c.Obeys (closedness functions) e
  | .declare d, e, hw, h | .noop o, e, hw, h => trivial
  | .bind d v, e, hw, h => by
    simp only [Scoping.command, List.append_eq_nil_iff] at h
    exact ⟨hw.2, h.1⟩
  | .bindTuple ds v o, e, hw, h => by
    simp only [Scoping.command, List.append_eq_nil_iff] at h
    exact ⟨.i32, ⟨hw, h.1⟩, fun m v u us hv _ _ _ i d _ _ => Value.in_element hv SortedSet.in_empty⟩
  | .assign a, e, hw, h => by
    simp only [Scoping.command, List.append_eq_nil_iff] at h
    exact closed_assigns hw h.1 h.2
  | .assignAll as o, e, hw, h => by
    simp only [Scoping.command, List.append_eq_nil_iff, List.flatMap_eq_nil_iff] at h
    exact fun a ha => closed_assigns (hw a ha) (h.1 a ha) (h.2 a ha)
  | .assert f o, e, hw, h | .assume f o, e, hw, h | .invariant f o, e, hw, h => ⟨hw, h⟩
  | .cond bs o, e, hw, h => closed_branches bs hw h
  | .whileLoop c inv variant body o, e, hw, h => by
    obtain ⟨hwc, hwinv, hwvar, hwbody⟩ := hw
    simp only [Scoping.command, List.append_eq_nil_iff] at h
    obtain ⟨⟨⟨hc, hinv⟩, hvar⟩, hbody⟩ := h
    refine ⟨⟨hwc, hc⟩, ⟨hwinv, hinv⟩, fun a ha => ?_, closed_block body hwbody hbody⟩
    have hwa := hwvar a ha
    obtain rfl := Option.mem_def.mp ha
    cases a <;> exact ⟨hwa, hvar⟩
  | .forRange i lo hi inv body o, e, hw, h => by
    obtain ⟨-, hwlo, hwhi, hwinv, hwbody⟩ := hw
    simp only [Scoping.command, List.append_eq_nil_iff] at h
    obtain ⟨⟨⟨⟨hlo, hhi⟩, -⟩, hinv⟩, hbody⟩ := h
    exact ⟨⟨hwlo, hlo⟩, ⟨hwhi, hhi⟩, ⟨hwinv, hinv⟩, closed_block body hwbody hbody⟩

theorem closed_branches : ∀ (bs : Branches) {e : Env}, bs.Written → Scoping.branches e bs = [] →
    bs.Obeys (closedness functions) e
  | .otherwise b, e, hw, h => closed_block b hw h
  | .branch c b rest, e, hw, h => by
    simp only [Scoping.branches, List.append_eq_nil_iff] at h
    exact ⟨⟨hw.1, h.1.1⟩, closed_block b hw.2.1 h.1.2, closed_branches rest hw.2.2 h.2⟩

theorem closed_block : ∀ (cs : List Command) {e : Env}, Command.AllWritten cs →
    (Scoping.block e cs).2 = [] → Command.AllObey (closedness functions) e cs
  | [], e, hw, h => trivial
  | c :: cs, e, hw, h => by
    obtain ⟨hfirst, hrest⟩ := block_cons h
    exact ⟨closed_command c hw.1 hfirst, closed_block cs hw.2 hrest⟩

end

theorem closed_contract {f : Function} (hw : f.Written) (h : Scoping.function functions f = []) :
    f.Promises (closedness functions) :=
  ⟨h, ⟨hw.precondition, (reads_of_function h).1⟩, ⟨hw.postcondition, (reads_of_function h).2.2⟩⟩

theorem closed_function {f : Function} (hw : f.Written) (h : Scoping.function functions f = []) :
    f.Obeys (closedness functions) := by
  obtain ⟨hpre, hresult, hpost⟩ := reads_of_function h
  exact ⟨fun _ => hw, ⟨hw.precondition, hpre⟩, closed_block f.body hw.body (of_function h).2.2,
    ⟨hw.result, hresult⟩, ⟨hw.postcondition, hpost⟩⟩

end Generation

/-- The functions of a program that is read from a file and obeys the scoping rules, before or after the
inference of types, obey them together with their contracts. -/
theorem Program.closed_functions {file : SourceFile} {p q : Program}
    (hread : (Program.read file).program = some p) (hq : q = p ∨ q = p.infer.1) (hvalid : q.validate = []) :
    ∀ f ∈ q.functions, f.Promises (Generation.closedness q.functions) ∧
      f.Obeys (Generation.closedness q.functions) := by
  have hwritten : ∀ f ∈ q.functions, f.Written := by
    rcases hq with rfl | rfl
    · exact Program.written_of_read hread
    · exact Program.written_infer (Program.written_of_read hread)
  have hrules := Scoping.of_functions hvalid
  exact fun f hf => ⟨Generation.closed_contract (hwritten f hf) (hrules f hf),
    Generation.closed_function (hwritten f hf) (hrules f hf)⟩

/-- Whether all free variables of an obligation are constants of its scope. -/
def Obligation.IsClosed (o : Obligation) : Prop := o.In fun x => o.scope.vars.contains x = true

/-- Generation for a program that is read from a file and obeys the scoping rules, before or after the
inference of types, is never out of scope: the frames allow all commands, and what is assigned to has a
value. No variable of the program is left in an obligation. -/
theorem Program.closed_obligations {file : SourceFile} {p q : Program}
    (hread : (Program.read file).program = some p) (hq : q = p ∨ q = p.infer.1)
    (hvalid : q.validate = []) (modes : Modes) {f : Function} (hf : f ∈ q.functions) :
    (∀ e, (Generation.function modes q.functions f).run default ≠ .error (.outOfScope e)) ∧
      ∀ os, f.obligations modes q.functions = .ok os → ∀ o ∈ os, o.IsClosed := by
  have hfs := fun f hf => (Program.closed_functions hread hq hvalid f hf).1
  have hobeys := (Program.closed_functions hread hq hvalid f hf).2
  constructor
  · intro e he
    have hsafe := Generation.safe_function modes hfs hf hobeys
    rw [he] at hsafe
    exact hsafe trivial
  · intro os hos o ho
    obtain ⟨m, hscope, -, hkept⟩ :=
      (Generation.closedness q.functions).keeps_obligations modes hfs hf hobeys hos o ho
    have hin : o.In m.Has := hkept
    refine hin.mono fun x hx => ?_
    rw [hscope]
    exact (NameMap.contains_iff _ _).mpr hx

/-- Two functions, the second of which calls the first in a branch of a loop. -/
def nextText : SourceFile := .ofString "next"
  "(defun next ((mut n i32)) i32 (requires (< n 9)) (ensures (> return_value n'old)) (returns n)
    (body (set n (+ n 1))))
  (defun all ((k i32)) unit (requires (< k 9))
    (body (for i 0 k (if ((> k 3) (assert (> (call next i) i)))))))"

/-- The obligations of `nextText`'s second function are closed: for the call and the assertion there are
two, which mention the loop variable. -/
theorem Program.closed_obligations_next : ∃ p f os, (Program.read nextText).program = some p ∧
    p.validate = [] ∧ f ∈ p.functions ∧ f.obligations .standard p.functions = .ok os ∧
    os.length = 2 ∧ ∀ o ∈ os, o.IsClosed := by
  obtain ⟨p, f, hp, hvalid, hf, hruns⟩ := Program.exists_of_read nextText
    (fun p f => (f.obligations .standard p.functions).toOption.any fun os => os.length == 2)
    (by decide +kernel)
  obtain ⟨os, hos, hlen⟩ := (Option.any_eq_true _ _).mp hruns
  have hok := toOption_eq_some.mp hos
  exact ⟨p, f, os, hp, hvalid, hf, hok, by simpa using hlen,
    (Program.closed_obligations hp (.inl rfl) hvalid .standard hf).2 os hok⟩

end Verdict
