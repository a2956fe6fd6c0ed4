import Verdict.Proofs.Tracking

/-! # Functions

On entry the symbolic constants are the inputs, and a store in which they have their arguments matches
the initial state. The precondition is assumed, the body is run, the result is evaluated, and the
postcondition is checked where the result has its name (`FunctionCourse`). If all obligations are true,
no run goes wrong (`FunctionCourse.ensures_execute`). -/

namespace Verdict

open Generation

/-! ### The variables on entry -/

variable {ds : List Declaration} {e : Scoping.Env} {x : String} {t : Ty}

theorem Scoping.Declares.not_quote_mem (h : Scoping.Declares e ds) :
    ∀ d ∈ ds, '\'' ∉ d.name.toList := by
  induction ds generalizing e with
  | nil => exact fun d hd => nomatch hd
  | cons d ds ih =>
    intro d' hd'
    rcases List.mem_cons.mp hd' with rfl | hd'
    · by_cases hw : d'.name = "_"
      · simp [hw]
      · exact not_quote_mem_of_isReserved (Scoping.of_declareFaults h.1 hw).1
    · exact ih h.2 d' hd'

/-- Inputs are neither wildcards nor values on entry. -/
theorem Scoping.Declares.names (h : Scoping.Declares e ds)
    (he : ∀ x v, e.vars.get? x = some v → '\'' ∉ x.toList ∧ x ≠ "_") (x : String) (v : Entry)
    (hx : (ds.foldl (fun e d => Scoping.declare e d.name d.type d.mutable) e).vars.get? x = some v) :
    '\'' ∉ x.toList ∧ x ≠ "_" := by
  induction ds generalizing e with
  | nil => exact he x v hx
  | cons d ds ih =>
    refine ih h.2 (fun y w hy => ?_) hx
    unfold Scoping.declare at hy
    split_ifs at hy with hw
    · exact he y w hy
    · rw [Scoping.Env.get?_add] at hy
      split_ifs at hy with hdy
      · subst hdy
        exact ⟨h.not_quote_mem d List.mem_cons_self, hw⟩
      · exact he y w hy

/-- Inputs and their values on entry have the types with which they are declared one after the other. -/
theorem get?_foldl_entry (hx : x ≠ "_") (ds : List Declaration) {olds m : NameMap Ty}
    (hd : Scoping.Declares e ds) (holds : ∀ y t, olds.get? y = some t → '\'' ∈ y.toList)
    (h : (olds.get? x).or (e.scope.vars.get? x) = m.get? x) :
    ((addOlds ds olds).get? x).or ((ds.foldl
        (fun e d => Scoping.declare e d.name d.type d.mutable) e).scope.vars.get? x) =
      (ds.foldl (fun m d => (m.insert d.name d.type).insert (oldName d.name) d.type) m).get? x := by
  induction ds generalizing e olds m with
  | nil => exact h
  | cons d ds ih =>
    have holds' : ∀ y t, (olds.insert (oldName d.name) d.type).get? y = some t → '\'' ∈ y.toList := by
      intro y t hy
      rw [NameMap.get?_insert] at hy
      split_ifs at hy with hdy
      · exact hdy ▸ quote_mem_oldName d.name
      · exact holds y t hy
    refine ih hd.2 holds' ?_
    dsimp only
    rw [NameMap.get?_insert, NameMap.get?_insert]
    split_ifs with hold
    · rfl
    · rw [NameMap.get?_insert]
      split_ifs with hdx
      · subst hdx
        -- A value on entry has a quote in its name, and an input has not.
        have hnone : olds.get? d.name = none := by
          rw [Option.eq_none_iff_forall_ne_some]
          exact fun t ht => hd.not_quote_mem d List.mem_cons_self (holds _ t ht)
        rw [hnone, Scoping.Env.type?_scope, Scoping.declare, if_neg hx, Scoping.Env.get?_add,
          if_pos rfl]
        rfl
      · rw [← h, Scoping.Env.type?_scope, Scoping.Env.type?_scope, Scoping.declare]
        split_ifs
        · rfl
        · rw [Scoping.Env.get?_add, if_neg hdx]

namespace Function

variable {functions : List Function} {f : Function}
  (hd : Scoping.Declares ⟨.empty, functions⟩ f.inputs)
include hd

/-- The environment of the body knows exactly the inputs and their values on entry. -/
theorem get?_entryEnv (hx : x ≠ "_") :
    (f.entryEnv functions).scope.vars.get? x = f.entryVars.get? x := by
  rw [Function.entryEnv, type?_foldl_add f.inputs x _ _ .empty rfl]
  exact get?_foldl_entry hx f.inputs hd (fun y t hy => nomatch hy) rfl

theorem get?_entryEnv_of_inputEnv (h : (f.inputEnv functions).scope.vars.get? x = some t) :
    (f.entryEnv functions).scope.vars.get? x = some t := by
  have hquote : '\'' ∉ x.toList := by
    rw [Scoping.Env.type?_scope, Option.map_eq_some_iff] at h
    obtain ⟨v, hv, -⟩ := h
    exact (hd.names (fun y w hy => nomatch hy) x v hv).1
  have hold : (addOlds f.inputs .empty).get? x = none := by
    rw [Option.eq_none_iff_forall_ne_some]
    exact fun u hu => hquote (quote_mem_of_addOlds (m := .empty) (fun y w hy => nomatch hy) hu)
  rw [Function.entryEnv, type?_foldl_add f.inputs x _ _ .empty rfl, hold, Option.none_or]
  exact h

end Function

namespace Generation

open GenM

/-! ### The initial state -/

/-- Whether variables, which are inputs or values on entry, are replaced by constants of their types that
have their values. -/
structure Enters (types : NameMap Ty) (m : Substitution) (symbols : NameMap Ty) (σ : Valuation) :
    Prop where
  fits : σ.Fits symbols
  names : ∀ x t, symbols.get? x = some t → '\'' ∉ x.toList
  values : ∀ x t, types.get? x = some t → ∃ y, m.get? x = some (.var y) ∧
    symbols.get? y = some t ∧ σ x = σ y ∧ (x = y ∨ x = oldName y)

variable {types symbols : NameMap Ty} {m : Substitution} {σ : Valuation}

theorem ne_oldName (hx : '\'' ∉ x.toList) (y : String) : x ≠ oldName y := by
  rintro rfl
  exact hx (quote_mem_oldName y)

theorem Enters.insert (h : Enters types m symbols σ) (hx : '\'' ∉ x.toList) {a : Val} (ha : t.Has a) :
    Enters ((types.insert x t).insert (oldName x) t)
      ((m.insert x (.var x)).insert (oldName x) (.var x)) (symbols.insert x t)
      (Function.update (Function.update σ x a) (oldName x) a) := by
  have hself : Function.update (Function.update σ x a) (oldName x) a x = a := by
    rw [Function.update_of_ne (ne_oldName hx x), Function.update_self]
  have hrest : ∀ y, x ≠ y → oldName x ≠ y →
      Function.update (Function.update σ x a) (oldName x) a y = σ y := fun y hy hold => by
    rw [Function.update_of_ne hold.symm, Function.update_of_ne hy.symm]
  refine ⟨fun y u hy => ?_, fun y u hy => ?_, fun y u hy => ?_⟩
  · rw [NameMap.get?_insert] at hy
    split_ifs at hy with hxy
    · subst hxy
      obtain rfl := Option.some_inj.mp hy
      rwa [hself]
    · rw [hrest y hxy (ne_oldName (h.names y u hy) x).symm]
      exact h.fits y u hy
  · rw [NameMap.get?_insert] at hy
    split_ifs at hy with hxy
    · exact hxy ▸ hx
    · exact h.names y u hy
  · rw [NameMap.get?_insert, NameMap.get?_insert] at hy
    rw [NameMap.get?_insert, NameMap.get?_insert]
    by_cases hold : oldName x = y
    · rw [if_pos hold] at hy ⊢
      refine ⟨x, rfl, by simpa using hy, ?_, .inr hold.symm⟩
      rw [hself, ← hold, Function.update_self]
    · rw [if_neg hold] at hy ⊢
      by_cases hxy : x = y
      · subst hxy
        rw [if_pos rfl] at hy ⊢
        exact ⟨x, rfl, by simpa using hy, rfl, .inl rfl⟩
      · rw [if_neg hxy] at hy ⊢
        obtain ⟨z, hm, hz, heq, hyz⟩ := h.values y u hy
        have hxz : x ≠ z := by
          rintro rfl
          rcases hyz with rfl | rfl
          · exact hxy rfl
          · exact hold rfl
        refine ⟨z, hm, by rw [NameMap.get?_insert, if_neg hxz, hz], ?_, hyz⟩
        rw [hrest y hxy hold, hrest z hxz (ne_oldName (h.names z u hz) x).symm, heq]

theorem enters_foldl (ds : List Declaration) (args : List Val)
    (hnames : ∀ d ∈ ds, '\'' ∉ d.name.toList) (hargs : Ty.HasAll (ds.map Declaration.type) args)
    {s : SymState} (h : Enters types s.values symbols σ) :
    Enters (ds.foldl (fun m d => (m.insert d.name d.type).insert (oldName d.name) d.type) types)
      (ds.foldl (fun s d => (s.set d.name (.var d.name)).set (oldName d.name) (.var d.name)) s).values
      (ds.foldl (fun m d => m.insert d.name d.type) symbols)
      ((ds.zip args).foldl
        (fun σ (d, v) => Function.update (Function.update σ d.name v) (oldName d.name) v) σ) := by
  induction ds generalizing args types symbols σ s with
  | nil => simpa using h
  | cons d ds ih =>
    obtain ⟨a, as, rfl, ha, has⟩ := hargs
    exact ih as (fun d' hd' => hnames d' (List.mem_cons_of_mem d hd')) has
      (h.insert (hnames d List.mem_cons_self) ha)

theorem enters_initial {f : Function} (frame : Frame) {args : List Val}
    (hnames : ∀ d ∈ f.inputs, '\'' ∉ d.name.toList)
    (hargs : Ty.HasAll (f.inputs.map Declaration.type) args) :
    Enters f.entryVars (initial frame f).values (inputSymbols f) (f.entryStore args) :=
  enters_foldl f.inputs args hnames hargs
    ⟨fun _ _ hx => (nomatch hx), fun _ _ hx => (nomatch hx), fun _ _ hx => (nomatch hx)⟩

theorem foldl_initial_rest (ds : List Declaration) (s : SymState) :
    let s' := ds.foldl (fun s d => (s.set d.name (.var d.name)).set (oldName d.name) (.var d.name)) s
    s'.frame = s.frame ∧ s'.facts = s.facts := by
  induction ds generalizing s with
  | nil => exact ⟨rfl, rfl⟩
  | cons d ds ih => exact ih ((s.set d.name (.var d.name)).set (oldName d.name) (.var d.name))

theorem known_foldl (ds : List Declaration) (hds : ∀ d ∈ ds, d.type.hasUnknown = false)
    (h : ∀ x t, symbols.get? x = some t → t.hasUnknown = false) (x : String) (t : Ty)
    (hx : (ds.foldl (fun m d => m.insert d.name d.type) symbols).get? x = some t) :
    t.hasUnknown = false := by
  induction ds generalizing symbols with
  | nil => exact h x t hx
  | cons d ds ih =>
    refine ih (fun d' hd' => hds d' (List.mem_cons_of_mem d hd')) (fun y u hy => ?_) hx
    rw [NameMap.get?_insert] at hy
    split_ifs at hy
    · obtain rfl := Option.some_inj.mp hy
      exact hds d List.mem_cons_self
    · exact h y u hy

theorem known_of_declareInputs {frame frame' : Frame} (h : frame.declareInputs ds = .ok frame') :
    ∀ d ∈ ds, d.type.hasUnknown = false := by
  induction ds generalizing frame with
  | nil => exact fun d hd => nomatch hd
  | cons d ds ih =>
    obtain ⟨frame₁, h₁, h⟩ := ok_of_bind h
    exact List.forall_mem_cons.mpr ⟨(Frame.of_declare h₁).1, ih h⟩

theorem known_inputs {functions : List Function} {f : Function} {frame : Frame}
    (h : Frame.entry functions f = .ok frame) : ∀ d ∈ f.inputs, d.type.hasUnknown = false := by
  obtain ⟨frame₁, h₁, -⟩ := ok_of_bind h
  exact known_of_declareInputs h₁

theorem anyUnknown_map (h : ∀ d ∈ ds, d.type.hasUnknown = false) :
    Ty.anyUnknown (ds.map Declaration.type) = false := by
  induction ds with
  | nil => rfl
  | cons d ds ih =>
    simp only [List.map_cons, Ty.anyUnknown, Bool.or_eq_false_iff]
    exact ⟨h d List.mem_cons_self, ih fun d' hd' => h d' (List.mem_cons_of_mem d hd')⟩

section Initial

variable {functions : List Function} {f : Function} {frame : Frame} {R : Rules} {g : Generator}
  (hd : Scoping.Declares ⟨.empty, functions⟩ f.inputs)
  (hframe : Frame.entry functions f = .ok frame) (hg : g.symbols = inputSymbols f)

theorem known_initial (hframe : Frame.entry functions f = .ok frame)
    (hg : g.symbols = inputSymbols f) : g.Known := by
  intro x t hx
  rw [hg] at hx
  have hempty : ∀ y u, (NameMap.empty : NameMap Ty).get? y = some u → u.hasUnknown = false :=
    fun _ _ hy => nomatch hy
  exact known_foldl f.inputs (known_inputs hframe) hempty x t hx

theorem facts_initial : (initial frame f).facts = [] :=
  (foldl_initial_rest f.inputs _).2

theorem frame_initial : (initial frame f).frame = frame :=
  (foldl_initial_rest f.inputs _).1

include hd hframe

theorem get?_entryVars (hx : (f.entryEnv functions).scope.vars.get? x = some t) :
    f.entryVars.get? x = some t := by
  rw [← Function.get?_entryEnv hd, hx]
  rintro rfl
  rw [Scoping.Env.type?_scope, (Frame.covers_entry hd hframe).2.wildcard] at hx
  cases hx

include hg

theorem typed_initial : (initial frame f).Typed R (f.entryEnv functions).scope.vars g := by
  have henters := enters_initial frame hd.not_quote_mem
    (Ty.hasAll_blankAll _ (anyUnknown_map (known_inputs hframe)))
  refine ⟨fun x t hx => ?_, fun f hf => ?_⟩
  · obtain ⟨y, hy, hsym, -⟩ := henters.values x t (get?_entryVars hd hframe hx)
    refine ⟨.var y, hy, t, ?_, rfl⟩
    simp [Generator.scope, Scope.type?, hg, hsym]
  · rw [facts_initial] at hf
    cases hf

/-- The store on entry matches the initial state, the constants being the arguments. -/
theorem matches_initial {I : Interp} {args : List Val}
    (hargs : Ty.HasAll (f.inputs.map Declaration.type) args) :
    (initial frame f).Matches I (f.entryEnv functions).scope.vars g (f.entryStore args)
      (f.entryStore args) := by
  have henters := enters_initial frame hd.not_quote_mem hargs
  refine ⟨hg ▸ henters.fits, fun x t hx => ?_, fun f hf => ?_⟩
  · obtain ⟨y, hy, -, heq, -⟩ := henters.values x t (get?_entryVars hd hframe hx)
    rw [valuation_of_get? hy, heq]
    simp [Value.var, Value.eval, Place.eval]
  · rw [facts_initial] at hf
    cases hf

end Initial

/-! ### The course of a function -/

/-- The course of a function: the precondition, the body, the result and the postcondition. -/
structure FunctionCourse (R : Rules) (ctx : GenContext) (f : Function) (gF : Generator) where
  (frame : Frame)
  (pre : Formula)
  (result : Value)
  {entered stop last final : SymState}
  {g₀ g₁ g₂ g₃ : Generator}
  wellTyped : f.WellTyped R ctx.functions
  declares : Scoping.Declares ⟨.empty, ctx.functions⟩ f.inputs
  entry : Frame.entry ctx.functions f = .ok frame
  symbols : g₀.symbols = inputSymbols f
  none : g₀.obligations = []
  preConditions : FormulaConditions R (f.entryEnv ctx.functions).scope.vars f.precondition
    (initial frame f) entered g₀ g₁
  preTyped : pre.Typed R.bounds (g₁.scope R)
  preMeaning : Meant R (f.entryEnv ctx.functions).scope.vars (initial frame f) g₀ g₁ fun I ρ σ =>
    pre.Holds I ρ ↔ f.precondition.Holds I σ
  bodyReady : Ready ctx R (f.entryEnv ctx.functions) (entered.assume pre) g₁
  bodyFaults : (Scoping.block (f.entryEnv ctx.functions) f.body).2 = []
  bodyRun : Gives (block ctx (entered.assume pre) f.body) g₁ stop g₂
  bodyReaches : Reaches R (f.exitEnv ctx.functions).scope.vars (entered.assume pre) stop g₁ g₂
  resultConditions : ValueConditions R (f.exitEnv ctx.functions).scope.vars f.result f.output.bare stop last
    g₂ g₃
  resultTyped : result.Typed R.bounds (g₃.scope R) f.output.bare
  resultMeaning : Meant R (f.exitEnv ctx.functions).scope.vars stop g₂ g₃ fun I ρ σ =>
    result.eval I ρ = f.result.eval I σ
  postConditions : CheckConditions R (f.postEnv ctx.functions).scope.vars f.postcondition
    (last.set resultName result) final g₃ gF

variable {functions : List Function} {f : Function} {R : Rules} {modes : Modes} {gF : Generator}

/-- The context in which the obligations of a function are generated. -/
def contextOf (modes : Modes) (functions : List Function) (f : Function) : GenContext :=
  ⟨modes, functions, f.name, ghosts f⟩

theorem adjoins_postEnv (functions : List Function) (f : Function) :
    (f.exitEnv functions).scope.vars.Adjoins resultName f.output
      (f.postEnv functions).scope.vars := by
  intro x t hx
  rw [Function.postEnv, Scoping.Env.type?_scope, Scoping.Env.get?_add] at hx
  split_ifs at hx with hres
  · exact .inl ⟨hres.symm, (Option.some_inj.mp hx).symm⟩
  · exact .inr ⟨Ne.symm hres, (Scoping.Env.type?_scope _ x).trans hx⟩

/-- The result is known by its type among the ghosts. -/
theorem type?_postEnv {frame : Frame} {x : String} {t : Ty} (h : frame.Covers functions (f.exitEnv functions))
    (hx : (f.postEnv functions).scope.vars.get? x = some t) :
    (frame.scopeOver (ghosts f)).type? x = some t := by
  rcases adjoins_postEnv functions f x t hx with ⟨rfl, rfl⟩ | ⟨-, hx⟩
  · rw [Frame.type?_scopeOver h.nodup h.olds, h.result, ghosts, NameMap.get?_insert, if_pos rfl]
    rfl
  · exact h.scopeOver _ (h.types x t hx)

theorem sees_postEnv {s : SymState} (h : s.frame.Covers functions (f.exitEnv functions))
    (hR : R.Suits functions) :
    Sees (contextOf modes functions f) R (f.postEnv functions).scope.vars s := by
  refine ⟨fun x t => type?_postEnv h, fun name callee hcallee => ?_⟩
  change s.frame.functions.find? _ = some callee
  rw [h.functions]
  exact hR.calls name callee hcallee

theorem functionCourse (hvalid : Scoping.function functions f = [])
    (hwt : f.WellTyped R functions) (hR : R.Suits functions)
    (h : Gives (function modes functions f) default () gF) :
    Nonempty (FunctionCourse R (contextOf modes functions f) f gF) := by
  obtain ⟨hd, -, hbody⟩ := Scoping.of_function hvalid
  obtain ⟨frame, g, h0, h⟩ := h.bind
  obtain ⟨hframe, rfl⟩ := h0.inScope
  obtain ⟨_, g₀, h1, h⟩ := h.bind
  have hg₀ : g₀.symbols = inputSymbols f ∧ g₀.obligations = [] := by
    rw [h1.modify]
    exact ⟨rfl, rfl⟩
  obtain ⟨⟨pre, entered⟩, g₁, h2, h⟩ := h.bind
  obtain ⟨stop, g₂, h3, h⟩ := h.bind
  obtain ⟨⟨result, last⟩, g₃, h4, h⟩ := h.bind
  obtain ⟨final, g₄, h5, h⟩ := h.bind
  obtain ⟨-, rfl⟩ := gives_pure h
  have hready : Ready (contextOf modes functions f) R (f.entryEnv functions) (initial frame f) g₀ :=
    ⟨hR, frame_initial (f := f) ▸ (Frame.covers_entry hd hframe).2, typed_initial hd hframe hg₀.1,
      known_initial hframe hg₀.1⟩
  have hpre : f.precondition.Typed R.bounds (R.scope (f.entryEnv functions)) :=
    hwt.precondition.extend _
      ⟨fun x _ t hx => ⟨t, Function.get?_entryEnv_of_inputEnv hd hx, rfl⟩, fun _ _ => id⟩
  obtain ⟨hc1, hpt, hpm⟩ := of_formula hready.typed hR hready.sees hpre h2
  have hready1 := (hready.evaluated hc1.toEvaluated).assume hpt
  obtain ⟨hcov, hreach⟩ := reaches_block f.body ⟨hready1, hwt.body, hbody, h3⟩
  obtain ⟨hc2, hrt, hrm⟩ := of_value hreach.typed hR (sees_of_covers hcov hR hcov.types)
    hwt.result.1 h4
  have hcov' : last.frame.Covers functions (f.exitEnv functions) := hc2.frame ▸ hcov
  have hpost := of_check (hc2.typed.set (adjoins_postEnv functions f) hrt) hR
    (sees_postEnv hcov' hR) hwt.postcondition h5
  exact ⟨⟨frame, pre, result, hwt, hd, hframe, hg₀.1, hg₀.2, hc1, hpt, hpm, hready1, hbody, h3, hreach,
    hc2, hrt, hrm, hpost⟩⟩

/-! ### Runs of a function -/

namespace FunctionCourse

variable {ctx : GenContext} (r : FunctionCourse R ctx f gF)

theorem body : BlockRun ctx R (f.entryEnv ctx.functions) f.body (r.entered.assume r.pre) r.stop r.g₁ r.g₂ :=
  ⟨r.bodyReady, r.wellTyped.body, r.bodyFaults, r.bodyRun⟩
include r

theorem known : gF.Known := by
  have h₃ := (r.resultConditions.reaches r.bodyReaches.known).known
  exact (r.postConditions.reaches h₃).known

variable {M : Machine} (hF : Sound R M gF) {args : List Val}
  (hargs : Ty.HasAll (f.inputs.map Declaration.type) args)
include hF

/-- Where the precondition is evaluated it is well-defined, and where it is true the body starts in a
store that matches its first state. -/
theorem matches_entry (hargs : Ty.HasAll (f.inputs.map Declaration.type) args)
    (hans : M.Answers (f.entryStore args) (f.precondition.visit Frame.outsideQuantifiers)) :
    f.precondition.Defined M.interp (f.entryStore args) ∧
      (f.precondition.Holds M.interp (f.entryStore args) →
        (r.entered.assume r.pre).Matches M.interp (f.entryEnv ctx.functions).scope.vars r.g₁
          (f.entryStore args) (f.entryStore args)) := by
  have hgF1 : r.g₁.Grows gF := (r.bodyReaches.grows.trans r.resultConditions.grows).trans
    r.postConditions.grows
  have hm := matches_initial (I := M.interp) r.declares r.entry r.symbols hargs
  obtain ⟨hdef, hm1⟩ := r.preConditions.sound hF hgF1 hm hans
  exact ⟨hdef, fun hpre =>
    hm1.assume ((r.preMeaning hF.regular (hF.of_grows hgF1) hm).mpr hpre)⟩

/-- The postcondition is true of the result. -/
theorem post_of_matches {ρ : Valuation}
    (hm : r.stop.Matches M.interp (f.exitEnv ctx.functions).scope.vars r.g₂ ρ σ)
    (hans : M.Answers σ (f.result.visit Frame.outsideQuantifiers)) :
    (R.unitLiterals → f.result.Defined M.interp σ) ∧
      (M.Answers (Function.update σ resultName (f.result.eval M.interp σ))
          (f.postcondition.visit Frame.outsideQuantifiers) →
        f.postcondition.Defined M.interp
            (Function.update σ resultName (f.result.eval M.interp σ)) ∧
          f.postcondition.Holds M.interp
            (Function.update σ resultName (f.result.eval M.interp σ))) := by
  obtain ⟨hdef, hm3⟩ := r.resultConditions.sound hF r.postConditions.grows hm hans
  have hres := r.resultMeaning hF.regular (hF.of_grows r.postConditions.grows) hm
  refine ⟨r.wellTyped.result.defined hdef, fun hansPost => ?_⟩
  have hset := hm3.set (v := r.result) (adjoins_postEnv ctx.functions f)
  rw [hres] at hset
  exact (r.postConditions.sound hF (.refl _) hset hansPost).1

include hargs

/-- A run ends with a result of which the postcondition is true, if its calls are answered. -/
theorem ensures_run (fuel : ℕ) (choices : ℕ → Val) :
    (f.run M fuel args choices).Ensures R.unitLiterals fun out =>
      M.Answers (Function.update out.1 resultName out.2)
          (f.postcondition.visit Frame.outsideQuantifiers) →
        f.postcondition.Defined M.interp (Function.update out.1 resultName out.2) ∧
          f.postcondition.Holds M.interp (Function.update out.1 resultName out.2) := by
  unfold Function.run
  rw [Ending.ensures_bind]
  refine Machine.ensures_assume fun hans => ?_
  obtain ⟨hdef, hentry⟩ := r.matches_entry hF hargs hans
  refine ⟨fun _ => hdef, fun hpre => ?_⟩
  rw [Ending.ensures_bind]
  have hgF2 : r.g₂.Grows gF := r.resultConditions.grows.trans r.postConditions.grows
  refine (tracks_block hF f.body r.body hgF2 _ ⟨_, choices⟩ (hentry hpre)).mono ?_
  rintro k ⟨ρ, -, hm⟩
  rw [Ending.ensures_bind]
  refine Machine.ensures_evaluate fun hansResult => ?_
  exact r.post_of_matches hF hm hansResult

/-- No run goes wrong. -/
theorem ensures_execute (fuel : ℕ) (choices : ℕ → Val) :
    (f.execute M fuel args choices).Ensures R.unitLiterals fun _ => True := by
  unfold Function.execute
  rw [Ending.ensures_bind]
  refine (r.ensures_run hF hargs fuel choices).mono ?_
  rintro ⟨σ, v⟩ hpost
  rw [Ending.ensures_bind]
  exact Machine.ensures_check fun hans => ⟨hpost hans, trivial⟩

end FunctionCourse

end Generation

end Verdict
