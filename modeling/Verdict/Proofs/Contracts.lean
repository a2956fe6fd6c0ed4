import Verdict.Proofs.Soundness
import Verdict.Proofs.TypedObligations

/-! # Contracts at calls

A call uses the contract of its callee: the postcondition, with the arguments in the place of the inputs and
of their values on entry and with the call in the place of the result, becomes a fact. In a program without
recursion whose obligations are all true, this fact is true of what the callee computes
(`Program.contract_holds`). The callees are taken by rank: the obligations of a function are used where the
contracts of the functions that it calls are known to be obeyed.

In a postcondition the name of an input means its value at the end. So this is proved for programs in which
no function assigns to an input that its postcondition mentions. Without that it fails
(`Program.contract_fails_of_assigned`). -/

namespace Verdict

open Generation

/-! ### Programs without recursion -/

namespace Program

variable {p : Program} {rank : String → ℕ} {n : ℕ}

def below (p : Program) (rank : String → ℕ) (n : ℕ) : List Function :=
  p.functions.filter fun f => rank f.name < n

/-- Whether a program is well-typed and its call graph has no cycles: a function calls only functions of a
lower rank, also in its contract. -/
def Layered (p : Program) (rank : String → ℕ) : Prop :=
  ∀ f ∈ p.functions, f.WellTyped (.loose (p.below rank (rank f.name))) p.functions

theorem mem_below {f : Function} : f ∈ p.below rank n ↔ f ∈ p.functions ∧ rank f.name < n := by
  simp [below]

/-- A function is found below a rank if it is found and its rank is lower. -/
theorem find?_below {name : String} {f : Function} :
    ((p.below rank n).find? fun g => g.name == name) = some f ↔
      (p.functions.find? fun g => g.name == name) = some f ∧ rank name < n := by
  by_cases hrank : rank name < n
  · have hsame : (fun g : Function => decide (decide (rank g.name < n) = true ∧ (g.name == name) = true)) =
        fun g => g.name == name := by
      funext g
      by_cases hg : g.name = name <;> simp [hg, hrank]
    rw [below, List.find?_filter, hsame]
    exact (and_iff_left hrank).symm
  · refine iff_of_false (fun h => hrank ?_) fun h => hrank h.2
    have hname : f.name = name := by simpa using List.find?_some h
    exact hname ▸ (mem_below.mp (List.mem_of_find?_eq_some h)).2

end Program

variable {calls : List Function} {args : List Val}

/-- Rules that only ask for types suit a program if the functions that may be called have well-typed
contracts. -/
theorem Rules.suits_loose {functions : List Function}
    (hvalid : ∀ f ∈ calls, Scoping.function functions f = [])
    (hfind : ∀ name f, (calls.find? fun g => g.name == name) = some f →
      (functions.find? fun g => g.name == name) = some f)
    (htyped : ∀ f ∈ calls, ∃ lower : List Function,
      (∀ name g, (lower.find? fun g => g.name == name) = some g →
        (calls.find? fun g => g.name == name) = some g) ∧ f.WellTyped (.loose lower) functions) :
    (Rules.loose calls).Suits functions := by
  refine ⟨exists_regular fun f hf => (Scoping.of_function (hvalid f hf)).2.1, hfind, ?_, ?_⟩
  · intro f hf
    obtain ⟨lower, hlower, hwt⟩ := htyped f hf
    have hd := (Scoping.of_function (hvalid f hf)).1
    refine hwt.precondition.extend _ ⟨fun x _ t ht => ⟨t, ?_, rfl⟩, hlower⟩
    exact entryVars_of_entryEnv hd (Function.get?_entryEnv_of_inputEnv hd ht)
  · intro f hf hknown
    obtain ⟨lower, hlower, hwt⟩ := htyped f hf
    refine hwt.postcondition.extend _ ⟨fun x hx t ht => ⟨t, ?_, rfl⟩, hlower⟩
    change (f.entryVars.insert resultName f.output).get? x = some t
    rw [NameMap.get?_insert]
    rcases adjoins_postEnv functions f x t ht with ⟨rfl, rfl⟩ | ⟨hres, hexit⟩
    · rw [if_pos rfl]
    · obtain ⟨u, hu⟩ := (hknown x hx).resolve_left hres
      obtain rfl := type_of_exitEnv (hvalid f hf) hexit hu
      rw [if_neg (Ne.symm hres), hu]

namespace Program

variable {p : Program} {rank : String → ℕ} (hvalid : p.validate = []) (hp : p.Layered rank)
include hvalid hp

theorem Layered.suits_below (n : ℕ) : (Rules.loose (p.below rank n)).Suits p.functions := by
  refine Rules.suits_loose (fun f hf => Scoping.of_functions hvalid f (mem_below.mp hf).1)
    (fun name f h => (find?_below.mp h).1) fun f hf => ?_
  obtain ⟨hmem, hrank⟩ := mem_below.mp hf
  refine ⟨_, fun name g h => ?_, hp f hmem⟩
  obtain ⟨hfind, hlower⟩ := find?_below.mp h
  exact find?_below.mpr ⟨hfind, hlower.trans hrank⟩

theorem Layered.suits : (Rules.loose p.functions).Suits p.functions :=
  Rules.suits_loose (Scoping.of_functions hvalid) (fun _ _ => id) fun f hf =>
    ⟨_, fun _ _ h => (find?_below.mp h).1, hp f hf⟩

end Program

/-! ### What functions compute -/

/-- Whether calls denote what functions compute. A call that is answered denotes the result of a run of the
function, and the calls that its postcondition makes then are answered too. -/
structure Machine.Computes (M : Machine) (functions : List Function) : Prop where
  regular : M.interp.Regular functions
  runs : ∀ f ∈ functions, ∀ args, Ty.HasAll (f.inputs.map Declaration.type) args →
    M.answers f.name args → ∃ fuel choices σ,
      f.run M fuel args choices = .done (σ, M.interp.call f.name args) ∧
        M.Answers (Function.update σ resultName (M.interp.call f.name args))
          (f.postcondition.visit Frame.outsideQuantifiers)

namespace Function

variable {functions : List Function} {f : Function} {M : Machine} {choices : ℕ → Val} {x : String}

/-- Whether a function leaves alone the inputs that its postcondition mentions. -/
def KeepsMentioned (f : Function) : Prop :=
  ∀ d ∈ f.inputs, d.name ∈ f.postcondition.freeVars.members →
    d.name ∉ (Command.affectedAll f.body).members

instance (f : Function) : Decidable f.KeepsMentioned := by
  unfold KeepsMentioned
  infer_instance

/-- A run that returns has started where the precondition is true. -/
theorem precondition_of_run {fuel : ℕ} {out : Valuation × Val}
    (h : f.run M fuel args choices = .done out) :
    f.precondition.Holds M.interp (f.entryStore args) := by
  obtain ⟨u, hassume, -⟩ := Ending.bind_eq_done.mp h
  have hensures : (M.assume (f.entryStore args) f.precondition).Ensures False fun _ =>
      f.precondition.Holds M.interp (f.entryStore args) :=
    Machine.ensures_assume fun _ => ⟨False.elim, id⟩
  rw [hassume] at hensures
  exact hensures

/-- A run keeps what the body does not affect. -/
theorem store_of_run {fuel : ℕ} {σ : Valuation} {v : Val}
    (h : f.run M fuel args choices = .done (σ, v)) (hx : x ∉ (Command.affectedAll f.body).members) :
    σ x = f.entryStore args x := by
  obtain ⟨-, -, h⟩ := Ending.bind_eq_done.mp h
  obtain ⟨k, hk, h⟩ := Ending.bind_eq_done.mp h
  obtain ⟨w, -, h⟩ := Ending.bind_eq_done.mp h
  have hleaves : (Command.execAll M fuel f.body ⟨f.entryStore args, choices⟩).Ensures False fun k' =>
      ∀ x, x ∉ (Command.affectedAll f.body).members → k'.store x = f.entryStore args x :=
    Command.execAll_leaves f.body _
  rw [hk] at hleaves
  cases h
  exact hleaves x hx

theorem name_of_entryVars {t : Ty} (h : f.entryVars.get? x = some t) :
    ∃ d ∈ f.inputs, x = d.name ∨ x = oldName d.name := by
  have hfold : ∀ (ds : List Declaration) (m : NameMap Ty),
      (ds.foldl (fun m d => (m.insert d.name d.type).insert (oldName d.name) d.type) m).get? x = some t →
        m.get? x = some t ∨ ∃ d ∈ ds, x = d.name ∨ x = oldName d.name := by
    intro ds
    induction ds with
    | nil => exact fun m hm => .inl hm
    | cons d ds ih =>
      intro m hm
      rcases ih _ hm with hm | ⟨d', hd', hx⟩
      · simp only [NameMap.get?_insert] at hm
        split_ifs at hm with hold hname
        · exact .inr ⟨d, List.mem_cons_self, .inr hold.symm⟩
        · exact .inr ⟨d, List.mem_cons_self, .inl hname.symm⟩
        · exact .inl hm
      · exact .inr ⟨d', List.mem_cons_of_mem d hd', hx⟩
  exact (hfold f.inputs .empty h).resolve_left fun h => nomatch h

/-- A known postcondition mentions, besides the result, only what has its value on entry at the end. -/
theorem KeepsMentioned.not_affected (h : f.KeepsMentioned)
    (hvalid : Scoping.function functions f = []) (hknown : f.PostKnown)
    (hx : x ∈ f.postcondition.freeVars.members) (hres : x ≠ resultName) :
    x ∉ (Command.affectedAll f.body).members := by
  obtain ⟨t, ht⟩ := (hknown x hx).resolve_left hres
  obtain ⟨d, hd, rfl | rfl⟩ := name_of_entryVars ht
  · exact h d hd hx
  · obtain ⟨hdeclares, -, hbody⟩ := Scoping.of_function hvalid
    have hquote := quote_mem_oldName d.name
    have hwild : oldName d.name ≠ "_" := by
      intro heq
      simp [heq] at hquote
    rw [← get?_entryEnv hdeclares hwild, Scoping.Env.type?_scope, Option.map_eq_some_iff] at ht
    obtain ⟨entry, hentry, -⟩ := ht
    exact Scoping.Env.Fixed.not_affectedAll f.body
      ⟨hwild, entry, hentry, .inr (by simpa using hquote)⟩ hbody

end Function

/-- If the obligations of a function are true where the contracts of its callees are obeyed, then its own
contract is obeyed by what it computes. -/
theorem Generation.FunctionCourse.obeys {R : Rules} {ctx : GenContext} {f : Function} {gF : Generator}
    {M : Machine} (r : FunctionCourse R ctx f gF) (hF : Sound R M gF) (hf : f ∈ ctx.functions)
    (hM : M.Computes ctx.functions) (hvalid : Scoping.function ctx.functions f = [])
    (hkeeps : f.KeepsMentioned) : M.Obeys f := by
  intro args hargs hans _ hknown
  obtain ⟨fuel, choices, σ, hrun, hpost⟩ := hM.runs f hf args hargs hans
  have hensures := r.ensures_run hF hargs fuel choices
  rw [hrun] at hensures
  refine (f.postcondition.holds_congr fun x hx => ?_).mp (hensures hpost).2
  by_cases hres : x = resultName
  · subst hres
    rw [Function.update_self, Function.update_self]
  · rw [Function.update_of_ne hres, Function.update_of_ne hres]
    exact Function.store_of_run hrun (hkeeps.not_affected hvalid hknown hx hres)

/-! ### Programs -/

theorem Interp.Regular.of_find {I : Interp} {functions : List Function} (h : I.Regular functions)
    (hfind : ∀ name f, (calls.find? fun g => g.name == name) = some f →
      (functions.find? fun g => g.name == name) = some f) : I.Regular calls :=
  ⟨fun f g args hg => h.call f g args (hfind f g hg), h.outside, h.outside_eq⟩

/-- The fact that the contract of a function gives for a call with some arguments. -/
def Function.factOf (f : Function) (args : List Value) : Formula :=
  f.postcondition.subst ((argumentMap f.inputs args).insert resultName (.call f.name args none))

namespace Program

variable {p : Program} {rank : String → ℕ} {M : Machine} {modes : Modes}

/-- Contracts are obeyed by what functions compute, by induction on the rank of a function. -/
theorem Layered.obeys (hvalid : p.validate = []) (hp : p.Layered rank)
    (hkeeps : ∀ f ∈ p.functions, f.KeepsMentioned) (hM : M.Computes p.functions)
    (htrue : ∀ f ∈ p.functions, ∃ os, f.obligations modes p.functions = .ok os ∧
      ∀ o ∈ os, o.Holds M.interp)
    (halikes : ∀ f ∈ p.functions, ∀ a ∈ f.alikes modes p.functions, a.Same M.interp) :
    ∀ f ∈ p.functions, M.Obeys f := by
  have key : ∀ n, ∀ f ∈ p.functions, rank f.name = n → M.Obeys f := by
    intro n
    induction n using Nat.strong_induction_on with
    | _ n ih =>
      rintro f hf rfl
      have hrules := Scoping.of_functions hvalid f hf
      obtain ⟨os, hos, hholds⟩ := htrue f hf
      obtain ⟨g, hgives, hfinish, halike⟩ := gives_of_obligations hos
      obtain ⟨r⟩ := functionCourse hrules (hp f hf) (hp.suits_below hvalid _) hgives
      have hcallees : ∀ callee ∈ p.below rank (rank f.name), M.Obeys callee := by
        intro callee hcallee
        obtain ⟨hmem, hlower⟩ := mem_below.mp hcallee
        exact ih _ hlower callee hmem rfl
      have hsound : Sound (.loose (p.below rank (rank f.name))) M g :=
        sound_of_obligations r (hM.regular.of_find fun _ _ h => (find?_below.mp h).1) hcallees hfinish
          hholds (halike ▸ halikes f hf)
      exact r.obeys hsound hf hM hrules (hkeeps f hf)
  exact fun f hf => key _ f hf rfl

/-- If all obligations of a program without recursion are true of what its functions compute, then so is
every fact that the contract of a callee gives for a call that returns. -/
theorem contract_holds (hvalid : p.validate = []) (hp : p.Layered rank)
    (hkeeps : ∀ f ∈ p.functions, f.KeepsMentioned) (hM : M.Computes p.functions) (modes : Modes)
    (htrue : ∀ f ∈ p.functions, ∃ os, f.obligations modes p.functions = .ok os ∧
      ∀ o ∈ os, o.Holds M.interp)
    (halikes : ∀ f ∈ p.functions, ∀ a ∈ f.alikes modes p.functions, a.Same M.interp)
    {ctx : GenContext} (hctx : ctx.functions = p.functions) {vars : NameMap Ty} {s s' : SymState}
    {g g' : Generator} {subject : Subject} {c : Call} {callee : Function}
    (hs : s.Typed (.loose p.functions) vars g)
    (hcallee : (p.functions.find? fun f => f.name == c.function) = some callee)
    (hargs : Value.AllTyped (Rules.loose p.functions).bounds ⟨vars, p.functions⟩ c.args
      (Ty.bareAll (callee.inputs.map Declaration.type)))
    (h : GenM.Gives (contract ctx s subject c) g s' g') (hsame : ∀ a ∈ g'.alikes, a.Same M.interp)
    {ρ : Valuation} (hρ : ρ.Fits g.symbols)
    (hreturns : M.answers c.function
      (Value.evalAll M.interp ρ (c.args.map (Value.subst s.values)))) :
    (callee.PostKnown → s' = s.assume (callee.factOf (c.args.map (Value.subst s.values))) ∧
      (callee.factOf (c.args.map (Value.subst s.values))).Holds M.interp ρ) ∧
    (¬ callee.PostKnown → s' = s) := by
  have hsuits : (Rules.loose p.functions).Suits ctx.functions := hctx ▸ hp.suits hvalid
  have hmem : callee ∈ p.functions := List.mem_of_find?_eq_some hcallee
  have hname : callee.name = c.function := by simpa using List.find?_some hcallee
  obtain ⟨args, hactuals, -, -, -, htyped, -, -, -, hs'⟩ := of_contract hs hsuits hcallee hargs h
  rw [← hactuals] at hreturns ⊢
  rcases hs' with ⟨hunknown, rfl⟩ | ⟨hknown, hassume, hpost⟩
  · exact ⟨fun hknown => absurd hknown hunknown, fun _ => rfl⟩
  refine ⟨fun _ => ?_, fun hunknown => absurd hknown hunknown⟩
  unfold Function.factOf
  rw [hname]
  refine ⟨hassume, ?_⟩
  have hentry := parallel_argumentMap callee htyped
  have hcall : (Value.call c.function args none).Typed (Rules.loose p.functions).bounds
      (g.scope (.loose p.functions)) callee.output.bare := ⟨callee, hcallee, rfl, htyped⟩
  have hhas : Ty.HasAll (callee.inputs.map Declaration.type) (Value.evalAll M.interp ρ args) := by
    rw [← Ty.hasAll_bareAll]
    exact htyped.has_eval args hM.regular hρ
  rw [(hentry.insert hcall resultName).holds_subst (hsuits.postcondition callee hmem hknown) hM.regular
    (fun a ha => hsame a (hpost a ha)) hρ, Value.eval, ← hname]
  rw [← hname] at hreturns
  obtain ⟨fuel, choices, σ, hrun, -⟩ := hM.runs callee hmem _ hhas hreturns
  exact hp.obeys hvalid hkeeps hM htrue halikes callee hmem _ hhas hreturns
    (Function.precondition_of_run hrun) hknown

end Program

/-! ### A function that assigns to its input -/

/-- Adds one to its input and returns it, with a postcondition. -/
def bump (post : Formula) : Function where
  name := "bump"
  inputs := [⟨"x", .i32, true, none⟩]
  output := .i32
  precondition := .lit true
  postcondition := post
  result := .var "x"
  body := [.assign ⟨.name "x" none, .expr (.op .add (.value (.var "x")) (.num 1)) none, none⟩]
  origin := none

/-- The result is one more than the input on entry. -/
def oneMore : Formula :=
  .equal (.value (.var resultName)) (.op .add (.value (.var (oldName "x"))) (.num 1))

/-- The result is the input at the end. -/
def asLeft : Formula := .equal (.value (.var resultName)) (.value (.var "x"))

/-- Adds two to its input by two calls. -/
def addTwo : Function where
  name := "addTwo"
  inputs := [⟨"y", .i32, false, none⟩]
  output := .i32
  precondition := .lit true
  postcondition := .equal (.value (.var resultName)) (.op .add (.value (.var "y")) (.num 2))
  result := .call "bump" [.call "bump" [.var "y"] none] none
  body := []
  origin := none

/-- Asserts that `bump` returns its argument. -/
def trusting : Function where
  name := "trusting"
  inputs := []
  output := .unit
  precondition := .lit true
  postcondition := .lit true
  result := .unit none
  body := [.assert (.equal (.value (.call "bump" [.int 1] none)) (.num 1)) none]
  origin := none

def adding : Program := ⟨[bump oneMore, addTwo]⟩

def misled : Program := ⟨[bump asLeft, trusting]⟩

/-- The functions that call `bump` come after it. -/
def afterBump (f : String) : ℕ := if f = "bump" then 0 else 1

theorem wellTyped_bump {functions : List Function} {post : Formula}
    (hpost : post.Typed (Rules.loose calls).bounds
      ((Rules.loose calls).scope ((bump post).postEnv functions))) :
    (bump post).WellTyped (.loose calls) functions := by
  refine ⟨trivial, ⟨⟨.i32, ⟨⟨rfl, rfl, ⟨.i32, ?_, rfl⟩, rfl⟩, False.elim⟩, .i32, ?_, rfl⟩, trivial⟩,
    ⟨⟨.i32, ?_, rfl⟩, False.elim⟩, hpost⟩
  all_goals cbv

theorem wellTyped_addTwo : addTwo.WellTyped (.loose [bump oneMore]) adding.functions := by
  have hvar : (Value.var "y").Typed (Rules.loose [bump oneMore]).bounds
      ((Rules.loose [bump oneMore]).scope (addTwo.exitEnv adding.functions)) .i32 := ⟨.i32, by cbv, rfl⟩
  refine ⟨trivial, trivial, ⟨⟨bump oneMore, rfl, rfl, .i32, [], rfl,
    ⟨bump oneMore, rfl, rfl, .i32, [], rfl, hvar, rfl⟩, rfl⟩, False.elim⟩,
    ⟨.i32, .inr (.inl rfl), ⟨.i32, by cbv, rfl⟩, rfl, ⟨.i32, by cbv, rfl⟩, rfl⟩⟩

theorem layered_adding : adding.Layered afterBump := by
  intro f hf
  rcases List.mem_pair.mp hf with rfl | rfl
  · refine wellTyped_bump ⟨.i32, .inr (.inl rfl), ⟨.i32, ?_, rfl⟩, rfl, ⟨.i32, ?_, rfl⟩, rfl⟩ <;> cbv
  · exact wellTyped_addTwo

theorem layered_misled : misled.Layered afterBump := by
  intro f hf
  rcases List.mem_pair.mp hf with rfl | rfl
  · refine wellTyped_bump ⟨.i32, .inr (.inl rfl), ⟨.i32, ?_, rfl⟩, ⟨.i32, ?_, rfl⟩⟩ <;> cbv
  · refine ⟨trivial, ⟨⟨.i32, .inr (.inl rfl), ?_, rfl⟩, trivial⟩, ⟨rfl, False.elim⟩, trivial⟩
    exact ⟨bump asLeft, rfl, rfl, .i32, [], rfl, ⟨rfl, rfl⟩, rfl⟩

/-- What the functions compute. -/
def counting (f : String) (vs : List Val) : Val :=
  if f = "bump" then .int ((vs.headD .unit).toInt + 1)
  else if f = "addTwo" then .int ((vs.headD .unit).toInt + 2)
  else .unit

/-- The machine that answers all calls but those of `trusting`. -/
def counter : Machine := ⟨.plain counting fun _ _ => 0, fun f _ => f ≠ "trusting"⟩

theorem regular_counter {functions : List Function}
    (h : ∀ f ∈ functions, (f.name = "bump" ∨ f.name = "addTwo") ∧ f.output = .i32 ∨
      f.name = "trusting" ∧ f.output = .unit) : counter.interp.Regular functions := by
  refine Interp.regular_plain (fun name f args hf _ => ?_) _
  have hname : f.name = name := by simpa using List.find?_some hf
  subst hname
  rcases h f (List.mem_of_find?_eq_some hf) with ⟨hf | hf, hout⟩ | ⟨hf, hout⟩ <;>
    simp [hf, hout, counting, Ty.Has]

theorem run_bump (post : Formula) (M : Machine) (fuel : ℕ) (n : ℤ) (choices : ℕ → Val) :
    (bump post).run M fuel [.int n] choices =
      .done (Function.update ((bump post).entryStore [.int n]) "x" (.int (n + 1)), .int (n + 1)) := by
  simp [Function.run, Machine.assume, Machine.truth, Machine.value, Machine.evaluate, Machine.Answers, bump,
    Function.entryStore, oldName, Command.execAll, Command.exec, Machine.assign, Machine.writes,
    Machine.index, Write.apply, Place.base, Formula.Holds, Formula.Defined, Value.var, Value.eval, Expr.eval,
    Place.eval, Value.Defined, Expr.Defined, Place.Defined, Interp.operate, Val.toInt, Operator.Allows,
    Formula.visit, Value.visit, Expr.visit, Place.visit, Node.with, Frame.outsideQuantifiers, call?]

theorem run_addTwo (fuel : ℕ) (n : ℤ) (choices : ℕ → Val) :
    addTwo.run counter fuel [.int n] choices = .done (addTwo.entryStore [.int n], .int (n + 2)) := by
  simp [Function.run, Machine.assume, Machine.truth, Machine.value, Machine.evaluate, Machine.Answers, addTwo,
    Function.entryStore, oldName, Command.execAll, Formula.Holds, Formula.Defined, Value.var, Value.eval,
    Value.evalAll, Place.eval, Value.Defined, Value.AllDefined, Place.Defined, Formula.visit, Value.visit,
    Value.visitAll, Place.visit, Node.with, Frame.outsideQuantifiers, call?, counter, counting, Interp.plain,
    Val.toInt, add_assoc]

theorem exists_int (h : Ty.HasAll [.i32] args) : ∃ n, args = [.int n] := by
  obtain ⟨v, vs, rfl, ⟨n, rfl⟩, rfl⟩ := h
  exact ⟨n, rfl⟩

theorem Machine.answers_of_nil {M : Machine} {σ : Valuation} {nodes : List Node}
    (h : nodes.filterMap call? = []) : M.Answers σ nodes := by
  simp [Answers, h]

theorem computes_bump {post : Formula}
    (hpost : (post.visit Frame.outsideQuantifiers).filterMap call? = [])
    (hargs : Ty.HasAll ((bump post).inputs.map Declaration.type) args) :
    ∃ fuel choices σ, (bump post).run counter fuel args choices =
        .done (σ, counter.interp.call (bump post).name args) ∧
      counter.Answers (Function.update σ resultName (counter.interp.call (bump post).name args))
        ((bump post).postcondition.visit Frame.outsideQuantifiers) := by
  obtain ⟨n, rfl⟩ := exists_int hargs
  exact ⟨0, fun _ => .unit, _, run_bump post counter 0 n _, Machine.answers_of_nil hpost⟩

theorem computes_adding : counter.Computes adding.functions := by
  refine ⟨regular_counter (by simp [adding, bump, addTwo]), fun f hf args hargs _ => ?_⟩
  rcases List.mem_pair.mp hf with rfl | rfl
  · exact computes_bump rfl hargs
  · obtain ⟨n, rfl⟩ := exists_int hargs
    exact ⟨0, fun _ => .unit, _, run_addTwo 0 n _, Machine.answers_of_nil rfl⟩

theorem computes_misled : counter.Computes misled.functions := by
  refine ⟨regular_counter (by simp [misled, bump, trusting]), fun f hf args hargs hans => ?_⟩
  rcases List.mem_pair.mp hf with rfl | rfl
  · exact computes_bump rfl hargs
  · exact absurd rfl hans

/-- The formula that says what a call of `bump` is. -/
def bumped (v : Value) (e : Expr) : Formula := .equal (.value (.call "bump" [v] none)) e

/-- An equation of equals is true. -/
theorem Function.exists_obligations_refl {f : Function} {modes : Modes} {functions : List Function}
    (vars : NameMap Ty) (e : Expr) (h : (f.obligations modes functions).toOption.map
      (List.map Obligation.outline) = some [⟨vars, [], .equal e e⟩]) (I : Interp) :
    ∃ os, f.obligations modes functions = .ok os ∧ ∀ o ∈ os, o.Holds I := by
  refine exists_obligations _ h fun t ht ρ _ _ => ?_
  obtain rfl := List.mem_singleton.mp ht
  rfl

theorem obligations_adding (I : Interp) : ∀ f ∈ adding.functions, ∃ os,
    f.obligations .standard adding.functions = .ok os ∧ ∀ o ∈ os, o.Holds I := by
  intro f hf
  rcases List.mem_pair.mp hf with rfl | rfl
  · exact Function.exists_obligations_refl (.ofList [("x", .i32)])
      (.op .add (.value (.var "x")) (.num 1)) (by cbv) I
  · let inner : Value := .call "bump" [.var "y"] none
    refine Function.exists_obligations [⟨.ofList [("y", .i32)],
      [bumped (.var "y") (.op .add (.value (.var "y")) (.num 1)),
        bumped inner (.op .add (.value inner) (.num 1))],
      bumped inner (.op .add (.value (.var "y")) (.num 2))⟩] (by cbv) ?_
    intro t ht ρ _ hassumptions
    obtain rfl := List.mem_singleton.mp ht
    simp only [inner, bumped, List.forall_mem_cons, List.not_mem_nil, false_imp_iff, implies_true,
      and_true, Formula.Holds, Expr.eval, Interp.operate] at hassumptions ⊢
    obtain ⟨hinner, houter⟩ := hassumptions
    rw [houter, hinner]
    simp [Val.toInt, add_assoc]

theorem obligations_misled (I : Interp) : ∀ f ∈ misled.functions, ∃ os,
    f.obligations .standard misled.functions = .ok os ∧ ∀ o ∈ os, o.Holds I := by
  intro f hf
  rcases List.mem_pair.mp hf with rfl | rfl
  · exact Function.exists_obligations_refl (.ofList [("x", .i32)])
      (.op .add (.value (.var "x")) (.num 1)) (by cbv) I
  · refine Function.exists_obligations
      [⟨.empty, [bumped (.int 1) (.num 1)], bumped (.int 1) (.num 1)⟩] (by cbv) ?_
    intro t ht ρ _ hassumptions
    obtain rfl := List.mem_singleton.mp ht
    exact hassumptions _ (List.mem_singleton_self _)

/-- The state in which `z` is one more than the constant `k`. -/
def callState (functions : List Function) : SymState :=
  ⟨⟨functions, [], [], [], .empty⟩,
    .ofList [("z", .expr (.op .add (.value (.var "k")) (.num 1)) none)], []⟩

def callStart : Generator := { (default : Generator) with symbols := .ofList [("k", .i32)] }

theorem typed_callState (functions : List Function) :
    (callState functions).Typed (.loose functions) (.ofList [("z", .i32)]) callStart := by
  refine ⟨fun x t hx => ?_, fun f hf => nomatch hf⟩
  obtain ⟨rfl, rfl⟩ : x = "z" ∧ t = .i32 := by
    simpa [NameMap.ofList, NameMap.get?_insert, eq_comm] using hx
  exact ⟨_, rfl, rfl, rfl, ⟨.i32, rfl, rfl⟩, rfl⟩

theorem fits_callStart (n : ℤ) : Valuation.Fits (fun _ => .int n) callStart.symbols := by
  intro x t hx
  obtain ⟨rfl, rfl⟩ : x = "k" ∧ t = .i32 := by
    simpa [callStart, NameMap.ofList, NameMap.get?_insert, eq_comm] using hx
  exact ⟨n, rfl⟩

/-- The callee calls a function that assigns to its input, and whose postcondition is about the value of
that input on entry. -/
theorem Program.contract_holds_addTwo :
    ∃ s', GenM.Gives (contract (contextOf .standard adding.functions addTwo) (callState adding.functions)
        ⟨none, ""⟩ ⟨"addTwo", [.var "z"], none⟩) callStart s' callStart ∧
      s' = (callState adding.functions).assume
        (addTwo.factOf [.expr (.op .add (.value (.var "k")) (.num 1)) none]) ∧
      (addTwo.factOf [.expr (.op .add (.value (.var "k")) (.num 1)) none]).Holds counter.interp
        fun _ => .int 4 := by
  have hgives : GenM.Gives (contract (contextOf .standard adding.functions addTwo)
      (callState adding.functions) ⟨none, ""⟩ ⟨"addTwo", [.var "z"], none⟩) callStart
      ((callState adding.functions).assume
        (addTwo.factOf [.expr (.op .add (.value (.var "k")) (.num 1)) none])) callStart := by
    unfold GenM.Gives
    cbv
  have hknown : addTwo.PostKnown := by
    intro x hx
    have hcases : x = resultName ∨ x = "y" := by
      simpa [addTwo, Formula.freeVars, Expr.freeVars, Value.freeVars, Value.var, Place.freeVars] using hx
    exact hcases.imp_right fun hy => ⟨.i32, by rw [hy]; rfl⟩
  have hargs : Value.AllTyped (Rules.loose adding.functions).bounds
      ⟨.ofList [("z", .i32)], adding.functions⟩ [.var "z"]
      (Ty.bareAll (addTwo.inputs.map Declaration.type)) := ⟨.i32, [], rfl, ⟨.i32, rfl, rfl⟩, rfl⟩
  have halikes : ∀ f ∈ adding.functions, f.alikes .standard adding.functions = [] := by
    intro f hf
    rcases List.mem_pair.mp hf with rfl | rfl <;> cbv
  have hreturns : (⟨"addTwo", [.var "z"], none⟩ : Call).function ≠ "trusting" := by decide
  exact ⟨_, hgives, (Program.contract_holds (p := adding) (by decide +kernel) layered_adding
    (by decide +kernel) computes_adding .standard (obligations_adding _)
    (fun f hf a ha => absurd (halikes f hf ▸ ha) List.not_mem_nil) rfl
    (typed_callState adding.functions) rfl hargs hgives (fun a ha => absurd ha List.not_mem_nil)
    (fits_callStart 4) hreturns).1 hknown⟩

/-- The contract of a function says that the result is the input, to which the function assigns. All
obligations are true, the fact that a caller takes from the contract is false of what the function computes,
and the caller goes wrong. -/
theorem Program.contract_fails_of_assigned :
    misled.validate = [] ∧ misled.Layered afterBump ∧ counter.Computes misled.functions ∧
      (∀ f ∈ misled.functions, f.alikes .standard misled.functions = [] ∧ ∃ os,
        f.obligations .standard misled.functions = .ok os ∧ ∀ o ∈ os, o.Holds counter.interp) ∧
      GenM.Gives (contract (contextOf .standard misled.functions trusting) (callState misled.functions)
        ⟨none, ""⟩ ⟨"bump", [.int 1], none⟩) callStart
        ((callState misled.functions).assume ((bump asLeft).factOf [.int 1])) callStart ∧
      (∀ ρ : Valuation, ¬ ((bump asLeft).factOf [.int 1]).Holds counter.interp ρ) ∧
      trusting.execute counter 0 [] (fun _ => .unit) = .wrong .assertion := by
  refine ⟨by decide +kernel, layered_misled, computes_misled, fun f hf => ⟨?_, obligations_misled _ f hf⟩,
    ?_, fun ρ => ?_, ?_⟩
  · rcases List.mem_pair.mp hf with rfl | rfl <;> cbv
  · unfold GenM.Gives
    cbv
  · have hfact : (bump asLeft).factOf [.int 1] = bumped (.int 1) (.num 1) := by cbv
    rw [hfact]
    simp [bumped, Formula.Holds, Expr.eval, Value.eval, Value.evalAll, Value.int, counter, counting,
      Interp.plain, Val.toInt]
  · simp [Function.execute, Function.run, Machine.assume, Machine.check, Machine.truth, Machine.evaluate,
      Machine.Answers, trusting, Function.entryStore, Command.execAll, Command.exec, Formula.Holds,
      Formula.Defined, Value.int, Value.eval, Value.evalAll, Expr.eval, Value.Defined, Value.AllDefined,
      Expr.Defined, Formula.visit, Value.visit, Value.visitAll, Expr.visit, Node.with,
      Frame.outsideQuantifiers, call?, counter, counting, Interp.plain, Val.toInt]

end Verdict
