import Verdict.Proofs.Generator
import Verdict.Proofs.Execution

/-! # Symbolic evaluation

Evaluating a node in a symbolic state adds the obligations that it is well-defined, uses the contracts of
the calls in it, and gives its meaning in terms of symbolic constants. Where a store matches the state,
the meaning is what the node denotes in the store. If the obligations are true the node is
well-defined there, and if it is well-defined the obligations are true. -/

namespace Verdict

/-! ### Calls in well-typed nodes -/

namespace Generation

/-- Whether the arguments of calls have the types of the inputs of callees that may be called. -/
def CallsTyped (fits : Bounds) (Γ : Scope) (calls : List Call) : Prop :=
  ∀ c ∈ calls, ∃ callee, Γ.function? c.function = some callee ∧
    Value.AllTyped fits Γ c.args (Ty.bareAll (callee.inputs.map Declaration.type))

variable {fits : Bounds} {Γ : Scope} {as bs : List Node}

theorem CallsTyped.append (ha : CallsTyped fits Γ (as.filterMap call?))
    (hb : CallsTyped fits Γ (bs.filterMap call?)) :
    CallsTyped fits Γ ((as ++ bs).filterMap call?) := by
  intro c hc
  rw [List.filterMap_append, List.mem_append] at hc
  exact hc.elim (ha c) (hb c)

/-- Nodes that are no calls add none. -/
theorem CallsTyped.with {n : Node} (hn : call? n = none)
    (ha : CallsTyped fits Γ (as.filterMap call?)) :
    CallsTyped fits Γ ((n.with Frame.outsideQuantifiers as).filterMap call?) := by
  unfold Node.with
  split_ifs
  · rwa [List.filterMap_cons_none hn]
  · rw [List.filterMap_cons_none hn]
    intro c hc
    simp at hc

theorem callsTyped_single {n : Node} (hn : call? n = none) :
    CallsTyped fits Γ ([n].filterMap call?) := by
  rw [List.filterMap_cons_none hn]
  intro c hc
  simp at hc

end Generation

open Generation (call? CallsTyped callsTyped_single)

variable {fits : Bounds} {α : Type}

mutual

theorem Place.Typed.calls (p : Place) {Γ : Scope} {t : Ty} (h : p.Typed fits Γ t) :
    CallsTyped fits Γ ((p.visit Frame.outsideQuantifiers).filterMap call?) :=
  match p, h with
  | .name _ _, _ | .wildcard _, _ => callsTyped_single rfl
  | .elem .array x i _, h => by
    obtain ⟨u, n, -, -, -, hi⟩ := h
    exact .with rfl (hi.calls i)
  | .elem .tuple x i _, h => by
    obtain ⟨u, ts, n, -, -, hn, -⟩ := h
    exact .with rfl ((Value.typed_of_constantIndex hn).calls i)

theorem Value.Typed.calls (v : Value) {Γ : Scope} {t : Ty} (h : v.Typed fits Γ t) :
    CallsTyped fits Γ ((v.visit Frame.outsideQuantifiers).filterMap call?) :=
  match v, h with
  | .expr e _, h => .with rfl (h.2.calls e)
  | .formula f _, h => .with rfl (h.2.calls f)
  | .place p _, h => by
    simp only [Value.Typed] at h
    exact .with rfl (h.calls p)
  | .tuple vs _, h => by
    obtain ⟨ts, -, -, hvs⟩ := h
    exact .with rfl (hvs.calls vs)
  | .array vs _, h => by
    obtain ⟨u, -, -, hvs⟩ := h
    exact .with rfl (hvs.calls vs)
  | .call f vs o, h => by
    obtain ⟨g, hg, -, hvs⟩ := h
    intro c hc
    rcases List.mem_cons.mp hc with rfl | hc
    · exact ⟨g, hg, hvs⟩
    · exact hvs.calls vs c hc
  | .ref v _ _, h | .deref v _, h => .with rfl (h.calls v)
  | .unit _, _ => callsTyped_single rfl
  | .ite c v w _, h => .with rfl (((h.1.calls c).append (h.2.1.calls v)).append (h.2.2.calls w))
  | .select .array b i _, h => by
    obtain ⟨n, hb, -, hi⟩ := h
    exact .with rfl ((hb.calls b).append (hi.calls i))
  | .select .tuple b i _, h => by
    obtain ⟨ts, n, hb, hn, -⟩ := h
    exact .with rfl ((hb.calls b).append ((Value.typed_of_constantIndex hn).calls i))
  | .store .array b i e _, h => by
    obtain ⟨u, n, -, hb, hi, he⟩ := h
    exact .with rfl (((hb.calls b).append (hi.calls i)).append (he.calls e))
  | .store .tuple b i e _, h => by
    obtain ⟨ts, n, u, -, hb, hn, -, he⟩ := h
    exact .with rfl
      (((hb.calls b).append ((Value.typed_of_constantIndex hn).calls i)).append (he.calls e))
  | .missing, h => by simp [Value.Typed] at h

theorem Value.AllTyped.calls (vs : List Value) {Γ : Scope} {ts : List Ty} (h : Value.AllTyped fits Γ vs ts) :
    CallsTyped fits Γ ((Value.visitAll Frame.outsideQuantifiers vs).filterMap call?) :=
  match vs, h with
  | [], _ => fun c hc => by simp [Value.visitAll] at hc
  | v :: vs, h => by
    obtain ⟨u, us, -, hv, hvs⟩ := h
    exact (hv.calls v).append (hvs.calls vs)

theorem Expr.Typed.calls (e : Expr) {Γ : Scope} {t : Ty} (h : e.Typed fits Γ t) :
    CallsTyped fits Γ ((e.visit Frame.outsideQuantifiers).filterMap call?) :=
  match e, h with
  | .num _, _ => callsTyped_single rfl
  | .value v, h => by
    simp only [Expr.Typed] at h
    exact .with rfl (h.calls v)
  | .op _ a b, h => .with rfl ((h.2.1.calls a).append (h.2.2.calls b))

theorem Formula.Typed.calls (f : Formula) {Γ : Scope} (h : f.Typed fits Γ) :
    CallsTyped fits Γ ((f.visit Frame.outsideQuantifiers).filterMap call?) :=
  match f, h with
  | .lit _, _ => callsTyped_single rfl
  | .and f g, h | .or f g, h => .with rfl ((h.1.calls f).append (h.2.calls g))
  | .not f, h => .with rfl (h.calls f)
  | .value v, h => by
    simp only [Formula.Typed] at h
    exact .with rfl (h.calls v)
  | .equal a b, h | .compare _ a b, h => by
    obtain ⟨t, -, ha, hb⟩ := h
    exact .with rfl ((ha.calls a).append (hb.calls b))
  -- A visitor that stays outside of quantifiers does not see their bodies.
  | .quant _ _ _ _, _ => callsTyped_single rfl

end

/-! ### Facts that become known -/

namespace SymState

@[simp] theorem assume_values (s : SymState) (f : Formula) : (s.assume f).values = s.values := by
  unfold assume
  split_ifs <;> rfl

@[simp] theorem assume_frame (s : SymState) (f : Formula) : (s.assume f).frame = s.frame := by
  unfold assume
  split_ifs <;> rfl

theorem mem_facts_assume {s : SymState} {f fact : Formula} (h : f ∈ s.facts) :
    f ∈ (s.assume fact).facts := by
  unfold assume
  split_ifs
  · exact h
  · exact List.mem_append_left _ h

theorem self_mem_facts_assume {s : SymState} {fact : Formula} (h : ¬ fact.isTrue = true) :
    fact ∈ (s.assume fact).facts := by
  unfold assume
  rw [if_neg h]
  exact List.mem_append_right _ (List.mem_singleton_self _)

theorem forall_facts_assume {s : SymState} {fact : Formula} {P : Formula → Prop} (h : ∀ f ∈ s.facts, P f)
    (hf : P fact) : ∀ f ∈ (s.assume fact).facts, P f := by
  unfold assume
  split_ifs
  · exact h
  · exact List.forall_mem_append.mpr ⟨h, List.forall_mem_singleton.mpr hf⟩

variable {R : Rules} {vars : NameMap Ty} {g : Generator} {s : SymState} {I : Interp}
  {ρ σ : Valuation} {fact : Formula}

theorem Typed.assume (h : s.Typed R vars g) (hf : fact.Typed R.bounds (g.scope R)) :
    (s.assume fact).Typed R vars g := by
  refine ⟨fun x t hx => ?_, forall_facts_assume h.facts hf⟩
  rw [assume_values]
  exact h.values x t hx

theorem Matches.assume (h : s.Matches I vars g ρ σ) (hf : fact.Holds I ρ) :
    (s.assume fact).Matches I vars g ρ σ := by
  refine ⟨h.fits, fun x t hx => ?_, forall_facts_assume h.facts hf⟩
  rw [assume_values]
  exact h.values x t hx

end SymState

/-! ### Contracts -/

/-- The types of the inputs of a function and of their values on entry. -/
def Function.entryVars (f : Function) : NameMap Ty :=
  f.inputs.foldl (fun m d => (m.insert d.name d.type).insert (oldName d.name) d.type) .empty

/-- Whether a postcondition mentions only inputs, their values on entry and the result. -/
def Function.PostKnown (f : Function) : Prop :=
  ∀ x ∈ f.postcondition.freeVars.members, x = resultName ∨ ∃ t, f.entryVars.get? x = some t

/-- Whether the functions that may be called are known, have results, and have well-typed contracts. -/
structure Rules.Suits (R : Rules) (functions : List Function) : Prop where
  possible : ∃ I : Interp, I.Regular R.calls
  calls : ∀ name callee, (R.calls.find? fun f => f.name == name) = some callee →
    (functions.find? fun f => f.name == name) = some callee
  precondition : ∀ callee ∈ R.calls,
    callee.precondition.Typed R.bounds ⟨callee.entryVars, R.calls⟩
  postcondition : ∀ callee ∈ R.calls, callee.PostKnown →
    callee.postcondition.Typed R.bounds
      ⟨callee.entryVars.insert resultName callee.output, R.calls⟩

/-- Whether a machine answers calls of a function as its contract says. -/
def Machine.Obeys (M : Machine) (callee : Function) : Prop :=
  ∀ args, Ty.HasAll (callee.inputs.map Declaration.type) args → M.answers callee.name args →
    callee.precondition.Holds M.interp (callee.entryStore args) → callee.PostKnown →
      callee.postcondition.Holds M.interp
        (Function.update (callee.entryStore args) resultName (M.interp.call callee.name args))

namespace Generation

open GenM

/-- Whether types, replacements and values have been given to the same names, so that replacements have
the types and denote the values. -/
def Parallel (fits : Bounds) (Δ : Scope) (types : NameMap Ty) (m : Substitution)
    (store : Interp → Valuation → Valuation) : Prop :=
  ∀ x, (types.get? x = none ∧ m.get? x = none) ∨
    ∃ t v, types.get? x = some t ∧ m.get? x = some v ∧ v.Typed fits Δ t.bare ∧
      ∀ I ρ, v.eval I ρ = store I ρ x

variable {Δ : Scope} {types : NameMap Ty} {m : Substitution} {store : Interp → Valuation → Valuation}
  {defined : Interp → Valuation → Prop}

theorem Parallel.insert (h : Parallel fits Δ types m store) {v : Value} {t : Ty}
    (hv : v.Typed fits Δ t.bare) (x : String) :
    Parallel fits Δ (types.insert x t) (m.insert x v)
      fun I ρ => Function.update (store I ρ) x (v.eval I ρ) := by
  intro y
  rw [NameMap.get?_insert, NameMap.get?_insert]
  by_cases hxy : x = y
  · subst hxy
    rw [if_pos rfl, if_pos rfl]
    exact .inr ⟨t, v, rfl, rfl, hv, fun I ρ => by simp⟩
  · rw [if_neg hxy, if_neg hxy]
    refine (h y).imp_right ?_
    rintro ⟨u, w, hu, hw, htyped, heval⟩
    refine ⟨u, w, hu, hw, htyped, fun I ρ => ?_⟩
    dsimp only
    rw [Function.update_of_ne (Ne.symm hxy)]
    exact heval I ρ

theorem parallel_foldl (ds : List Declaration) (args : List Value)
    (hargs : Value.AllTyped fits Δ args (Ty.bareAll (ds.map Declaration.type)))
    (h : Parallel fits Δ types m store) :
    Parallel fits Δ
      (ds.foldl (fun m d => (m.insert d.name d.type).insert (oldName d.name) d.type) types)
      ((ds.zip args).foldl (fun m (d, v) => (m.insert d.name v).insert (oldName d.name) v) m)
      fun I ρ => (ds.zip (Value.evalAll I ρ args)).foldl
        (fun σ (d, v) => Function.update (Function.update σ d.name v) (oldName d.name) v)
        (store I ρ) := by
  induction ds generalizing args types m store with
  | nil => simpa using h
  | cons d ds ih =>
    cases args with
    | nil => simp [Value.AllTyped, Ty.bareAll] at hargs
    | cons v vs =>
      obtain ⟨u, us, ⟨rfl, rfl⟩, hv, hvs⟩ := hargs
      exact ih vs hvs ((h.insert hv d.name).insert hv (oldName d.name))

/-- The replacements for the inputs of a callee have their types and denote its store on entry. -/
theorem parallel_argumentMap (f : Function) {args : List Value}
    (hargs : Value.AllTyped fits Δ args (Ty.bareAll (f.inputs.map Declaration.type))) :
    Parallel fits Δ f.entryVars (argumentMap f.inputs args)
      fun I ρ => f.entryStore (Value.evalAll I ρ args) :=
  parallel_foldl f.inputs args hargs fun _ => .inl ⟨rfl, rfl⟩

theorem Parallel.respects (h : Parallel fits Δ types m store) (xs : Names) :
    m.Respects fits ⟨types, Δ.functions⟩ Δ xs := by
  refine ⟨fun x _ t ht => ?_, fun _ _ => id⟩
  rcases h x with ⟨hnone, -⟩ | ⟨u, v, hu, hv, htyped, -⟩
  · rw [Scope.type?, hnone] at ht
    cases ht
  · obtain rfl : u = t := Option.mem_unique hu ht
    simpa [Substitution.image, hv] using htyped

theorem Parallel.agreeFor (h : Parallel fits Δ types m store) (I : Interp) (ρ : Valuation) :
    (m.valuation I ρ).AgreeFor (store I ρ) types := by
  intro x t ht
  rcases h x with ⟨hnone, -⟩ | ⟨u, v, -, hv, -, heval⟩
  · rw [hnone] at ht
    cases ht
  · simpa [Substitution.valuation, Substitution.image, hv] using heval I ρ

/-- A formula about what names stand for means the same where they are replaced. -/
theorem Parallel.holds_subst (h : Parallel fits Δ types m store) {f : Formula}
    (hf : f.Typed fits ⟨types, Δ.functions⟩) {I : Interp} (hI : I.Regular Δ.functions)
    (ha : I.Equates (f.alikes Δ.vars m)) {ρ : Valuation} (hρ : ρ.Fits Δ.vars) :
    (f.subst m).Holds I ρ ↔ f.Holds I (store I ρ) :=
  (hf.holds_subst (h.respects _) hI ha hρ).trans (hf.holds_iff (h.agreeFor I ρ))

theorem Parallel.contains_iff (h : Parallel fits Δ types m store) (x : String) :
    m.contains x = true ↔ ∃ t, types.get? x = some t := by
  rw [NameMap.contains_iff]
  rcases h x with ⟨ht, hm⟩ | ⟨t, v, ht, hv, -, -⟩
  · simp [ht, hm]
  · simp [ht, hv]

variable {R : Rules} {ctx : GenContext} {vars : NameMap Ty} {g g' : Generator} {s s' : SymState}
  {subject : Subject}

/-- Whether something is true of all stores that match a state, where all that a later generator takes for
one another means the same. -/
abbrev Meant (R : Rules) (vars : NameMap Ty) (s : SymState) (g g' : Generator)
    (P : Interp → Valuation → Valuation → Prop) : Prop :=
  ∀ {I : Interp} {ρ σ : Valuation}, I.Regular R.calls → I.Equates g'.alikes → s.Matches I vars g ρ σ → P I ρ σ

/-- The meanings of well-typed values in a state. -/
theorem of_substValues (hs : s.Typed R vars g) {vs ws : List Value} {ts : List Ty}
    (hvs : Value.AllTyped R.bounds ⟨vars, R.calls⟩ vs ts)
    (h : Gives (substValues s.values vs) g ws g') :
    g.Grows g' ∧ g'.symbols = g.symbols ∧ g'.obligations = g.obligations ∧
      ws = vs.map (Value.subst s.values) ∧ Value.AllTyped R.bounds (g.scope R) ws ts ∧
      Meant R vars s g g' fun I ρ σ => Value.evalAll I ρ ws = Value.evalAll I σ vs := by
  induction vs generalizing g g' ws ts with
  | nil =>
    obtain ⟨rfl, rfl⟩ := gives_pure h
    exact ⟨.refl _, rfl, rfl, rfl, hvs, fun _ _ _ => rfl⟩
  | cons v vs ih =>
    obtain ⟨u, us, rfl, hv, hvs⟩ := hvs
    obtain ⟨w, g1, h1, h2⟩ := h.bind
    obtain ⟨ws', g2, h3, h4⟩ := h2.bind
    obtain ⟨hw, hgrow1, hsym1, hobl1, halike1⟩ := of_substValue h1
    have hvt := hv.subst (hs.respects v.freeVars)
    obtain rfl := hw hvt.isWhole
    have hs1 : s.Typed R vars g1 := hs.grow hgrow1
    obtain ⟨hgrow2, hsym2, hobl2, heq, hws, heval⟩ := ih hs1 hvs h3
    obtain ⟨rfl, rfl⟩ := gives_pure h4
    have hscope : g1.scope R = g.scope R := by rw [Generator.scope, hsym1, Generator.scope]
    rw [hscope] at hws
    refine ⟨hgrow1.trans hgrow2, hsym2.trans hsym1, hobl2.trans hobl1, congrArg (_ :: ·) heq,
      ⟨u, us, rfl, hvt, hws⟩, ?_⟩
    intro I ρ σ hI ha hm
    have hv' := hm.eval_subst hs hI hv ((hgrow2.equates ha).of_subset halike1)
    simp only [Value.evalAll, hv', heval hI ha (hm.withSymbols hsym1)]

/-- What the use of a contract adds. -/
theorem of_contract (hs : s.Typed R vars g) (hR : R.Suits ctx.functions) {c : Call}
    {callee : Function} (hcallee : (R.calls.find? fun f => f.name == c.function) = some callee)
    (hargs : Value.AllTyped R.bounds ⟨vars, R.calls⟩ c.args
      (Ty.bareAll (callee.inputs.map Declaration.type)))
    (h : Gives (contract ctx s subject c) g s' g') :
    ∃ args, args = c.args.map (Value.subst s.values) ∧ g.Grows g' ∧ g'.symbols = g.symbols ∧
      Adds (fun o => o.assumptions = s.facts) g g' ∧
      Value.AllTyped R.bounds (g.scope R) args (Ty.bareAll (callee.inputs.map Declaration.type)) ∧
      Meant R vars s g g' (fun I ρ σ => Value.evalAll I ρ args = Value.evalAll I σ c.args) ∧
      Emitted g' s (callee.precondition.subst (argumentMap callee.inputs args)) ∧
      (∀ a ∈ callee.precondition.alikes g.symbols (argumentMap callee.inputs args),
        a ∈ g'.alikes) ∧
      (¬ callee.PostKnown ∧ s' = s ∨ callee.PostKnown ∧
        let map := (argumentMap callee.inputs args).insert resultName (.call c.function args none)
        s' = s.assume (callee.postcondition.subst map) ∧
          ∀ a ∈ callee.postcondition.alikes g.symbols map, a ∈ g'.alikes) := by
  unfold contract at h
  rw [hR.calls _ _ hcallee] at h
  dsimp only at h
  split_ifs at h with hlen
  · exact absurd h not_gives_fault
  obtain ⟨args, g1, h1, h⟩ := h.bind
  obtain ⟨hgrow1, hsym1, hobl1, heq, hargs', heval⟩ := of_substValues hs hargs h1
  obtain ⟨pre, g2, h2, h⟩ := h.bind
  obtain ⟨rfl, hgrow2, hsym2, hobl2, halike2⟩ := of_substFormula h2
  obtain ⟨_, g3, h3, h⟩ := h.bind
  obtain ⟨hgrow3, hsym3, -, hemit, hadds3⟩ := of_emit h3
  have hgrow : g.Grows g3 := (hgrow1.trans hgrow2).trans hgrow3
  have hsym : g3.symbols = g.symbols := (hsym3.trans hsym2).trans hsym1
  have hadds : Adds (fun o => o.assumptions = s.facts) g g3 :=
    (adds_of_eq (hobl2.trans hobl1)).trans (hadds3.mono fun o ho => ho.1)
  rw [hsym1] at halike2
  have hpostKnown : callee.PostKnown ↔ (callee.postcondition.freeVars.members.all fun x =>
      (argumentMap callee.inputs args).contains x || x == resultName) = true := by
    simp only [List.all_eq_true, Bool.or_eq_true, beq_iff_eq,
      (parallel_argumentMap callee hargs').contains_iff]
    exact forall₂_congr fun x _ => or_comm
  refine ⟨args, heq, ?_⟩
  split_ifs at h with hknown
  · obtain ⟨r, g4, h4, h⟩ := h.bind
    have hwhole : (Value.call c.function args none).isWhole = true := hargs'.isWhole args
    obtain rfl := eq_of_keep hwhole h4
    have hsame := same_keep h4
    obtain ⟨post, g5, h5, h⟩ := h.bind
    obtain ⟨rfl, hgrow5, hsym5, hobl5, halike5⟩ := of_substFormula h5
    obtain ⟨rfl, rfl⟩ := gives_pure h
    have hlast := hsame.grows.trans hgrow5
    rw [hsame.symbols, hsym] at halike5
    refine ⟨hgrow.trans hlast, (hsym5.trans hsame.symbols).trans hsym,
      hadds.trans (adds_of_eq (hobl5.trans hsame.obligations)), hargs', fun hI ha hm => ?_,
      hemit.grows hlast, ?_, .inr ⟨hpostKnown.mpr hknown, rfl, halike5⟩⟩
    · exact heval hI (((hgrow2.trans hgrow3).trans hlast).equates ha) hm
    · exact fun a h => hlast.alikes.subset (hgrow3.alikes.subset (halike2 a h))
  · obtain ⟨rfl, rfl⟩ := gives_pure h
    refine ⟨hgrow, hsym, hadds, hargs', fun hI ha hm => ?_, hemit, ?_,
      .inl ⟨mt hpostKnown.mp hknown, rfl⟩⟩
    · exact heval hI ((hgrow2.trans hgrow3).equates ha) hm
    · exact fun a h => hgrow3.alikes.subset (halike2 a h)

/-- Whether all obligations that are added assume at least the facts of a state. -/
def AddsUnder (s : SymState) : Generator → Generator → Prop := Adds fun o => ∀ f ∈ s.facts, f ∈ o.assumptions

theorem AddsUnder.of_facts (h : AddsUnder s' g g') (hfacts : ∀ f ∈ s.facts, f ∈ s'.facts) : AddsUnder s g g' :=
  h.mono fun _ ho f hf => ho f (hfacts f hf)

/-- What evaluation changes: at most facts and obligations are added. -/
structure Evaluated (R : Rules) (vars : NameMap Ty) (s s' : SymState) (g g' : Generator) : Prop where
  frame : s'.frame = s.frame
  values : s'.values = s.values
  symbols : g'.symbols = g.symbols
  grows : g.Grows g'
  facts : ∀ f ∈ s.facts, f ∈ s'.facts
  typed : s'.Typed R vars g'
  adds : AddsUnder s g g'

theorem Evaluated.refl (hs : s.Typed R vars g) : Evaluated R vars s s g g :=
  ⟨rfl, rfl, rfl, .refl g, fun _ h => h, hs, adds_of_eq rfl⟩

theorem Evaluated.trans {s'' : SymState} {g'' : Generator} (h : Evaluated R vars s s' g g')
    (h' : Evaluated R vars s' s'' g' g'') : Evaluated R vars s s'' g g'' := by
  exact ⟨h'.frame.trans h.frame, h'.values.trans h.values, h'.symbols.trans h.symbols,
    h.grows.trans h'.grows, fun f hf => h'.facts f (h.facts f hf), h'.typed,
    h.adds.trans (h'.adds.of_facts h.facts)⟩

/-- Whether a machine obeys the contracts of all functions that may be called, and all obligations of
a generator are true, as are the pairs of values that it takes for one another the same. -/
structure Sound (R : Rules) (M : Machine) (gF : Generator) : Prop where
  regular : M.interp.Regular R.calls
  obeys : ∀ callee ∈ R.calls, M.Obeys callee
  known : gF.Known
  discharged : gF.Discharged M.interp
  alikes : M.interp.Equates gF.alikes

theorem Sound.of_grows {M : Machine} {gF : Generator} (h : Sound R M gF) (hg : g.Grows gF) :
    M.interp.Equates g.alikes :=
  hg.equates h.alikes

theorem Evaluated.emit {kind : ObligationKind} {goal : Formula} {u : Unit} {g'' : Generator}
    (he : Evaluated R vars s s' g g') (h : Gives (emit ctx s' kind subject goal) g' u g'') :
    Evaluated R vars s s' g g'' := by
  obtain ⟨hgrow, hsym, -, -, hadds⟩ := of_emit h
  refine ⟨he.frame, he.values, hsym.trans he.symbols, he.grows.trans hgrow, he.facts, he.typed.grow hgrow,
    he.adds.trans (hadds.mono fun o ho f hf => ?_)⟩
  exact ho.1 ▸ he.facts f hf

/-- What is to be proved where a state is possible is true there. -/
theorem Sound.emit {M : Machine} {gF : Generator} {ρ σ : Valuation} {kind : ObligationKind} {goal : Formula}
    {u : Unit} (hF : Sound R M gF) (hgF : g'.Grows gF) (hs : s.Typed R vars g)
    (h : Gives (emit ctx s kind subject goal) g u g') (hgoal : goal.Typed R.bounds (g.scope R))
    (hm : s.Matches M.interp vars g ρ σ) : goal.Holds M.interp ρ ∧ s.Matches M.interp vars g' ρ σ := by
  obtain ⟨hgrow, hsym, -, hemit, -⟩ := of_emit h
  have hm' := hm.withSymbols hsym
  exact ⟨hF.discharged.goal hF.known hgF hemit (hs.grow hgrow) (hgoal.extend _ (hgrow.extends R _)) hm', hm'⟩

/-- Whether a store that matches a state matches the next one too, if the calls have answers. -/
abbrev StaysMatched (R : Rules) (vars : NameMap Ty) (s s' : SymState) (g g' : Generator)
    (answers : Machine → Valuation → Prop) : Prop :=
  ∀ {M : Machine} {gF : Generator} {ρ σ : Valuation}, Sound R M gF → g'.Grows gF →
    s.Matches M.interp vars g ρ σ → answers M σ → s'.Matches M.interp vars g' ρ σ

/-- The use of a contract is true to the machine. -/
theorem matches_contract {c : Call} (hs : s.Typed R vars g) (hR : R.Suits ctx.functions)
    (hc : CallsTyped R.bounds ⟨vars, R.calls⟩ [c])
    (h : Gives (contract ctx s subject c) g s' g') :
    Evaluated R vars s s' g g' ∧
      StaysMatched R vars s s' g g' fun M σ => M.answers c.function (Value.evalAll M.interp σ c.args) := by
  obtain ⟨callee, hcallee, hargs⟩ := hc c (List.mem_singleton_self c)
  have hmem : callee ∈ R.calls := List.mem_of_find?_eq_some hcallee
  have hname : callee.name = c.function := by simpa using List.find?_some hcallee
  obtain ⟨args, -, hgrow, hsym, hadds, hargs', heval, hemit, hpre, hs'⟩ :=
    of_contract hs hR hcallee hargs h
  have hadds' : AddsUnder s g g' := hadds.mono fun o ho f hf => ho ▸ hf
  have hentry := parallel_argumentMap callee hargs'
  have hcall : (Value.call c.function args none).Typed R.bounds (g.scope R) callee.output.bare :=
    ⟨callee, hcallee, rfl, hargs'⟩
  have hexit := hentry.insert hcall resultName
  rcases hs' with ⟨-, rfl⟩ | ⟨hknown, rfl, hpost⟩
  · refine ⟨⟨rfl, rfl, hsym, hgrow, fun _ h => h, hs.grow hgrow, hadds'⟩, ?_⟩
    intro M gF ρ σ _ _ hm _
    exact hm.withSymbols hsym
  · have hpostTyped := (hR.postcondition callee hmem hknown).subst
      (hexit.respects callee.postcondition.freeVars)
    refine ⟨⟨SymState.assume_frame _ _, SymState.assume_values _ _, hsym, hgrow,
      fun _ => SymState.mem_facts_assume, (hs.assume hpostTyped).grow hgrow, hadds'⟩, ?_⟩
    intro M gF ρ σ hF hgF hm hans
    have halikes := hF.of_grows hgF
    have hargsEval := heval hF.regular halikes hm
    have hpreTyped := (hR.precondition callee hmem).subst
      (hentry.respects callee.precondition.freeVars)
    have hm' := hm.withSymbols hsym
    have hgoal := hF.discharged.goal hF.known hgF hemit (hs.grow hgrow)
      (hpreTyped.extend _ (hgrow.extends R _)) hm'
    rw [hentry.holds_subst (hR.precondition callee hmem) hF.regular
      (halikes.of_subset hpre) hm.fits, hargsEval] at hgoal
    have hhas : Ty.HasAll (callee.inputs.map Declaration.type) (Value.evalAll M.interp σ c.args) := by
      rw [← hargsEval, ← Ty.hasAll_bareAll]
      exact hargs'.has_eval args hF.regular hm.fits
    have hobey := hF.obeys callee hmem _ hhas (hname ▸ hans) hgoal hknown
    refine hm'.assume ?_
    rw [hexit.holds_subst (hR.postcondition callee hmem hknown) hF.regular
      (halikes.of_subset hpost) hm.fits, Value.eval, hargsEval, ← hname]
    exact hobey

theorem matches_contracts {cs : List Call} (hs : s.Typed R vars g) (hR : R.Suits ctx.functions)
    (hcs : CallsTyped R.bounds ⟨vars, R.calls⟩ cs)
    (h : Gives (contracts ctx subject s cs) g s' g') :
    Evaluated R vars s s' g g' ∧
      StaysMatched R vars s s' g g' fun M σ =>
        ∀ c ∈ cs, M.answers c.function (Value.evalAll M.interp σ c.args) := by
  induction cs generalizing s g with
  | nil =>
    obtain ⟨rfl, rfl⟩ := gives_pure h
    exact ⟨.refl hs, fun _ _ hm _ => hm⟩
  | cons c cs ih =>
    obtain ⟨s1, g1, h1, h2⟩ := h.bind
    obtain ⟨he1, hm1⟩ := matches_contract hs hR (fun c' hc' => hcs c' (by simp_all)) h1
    obtain ⟨he2, hm2⟩ := ih he1.typed (fun c' hc' => hcs c' (List.mem_cons_of_mem c hc')) h2
    refine ⟨he1.trans he2, fun hF hgF hm hans => ?_⟩
    refine hm2 hF hgF (hm1 hF (he2.grows.trans hgF) hm (hans c List.mem_cons_self)) ?_
    exact fun c' hc' => hans c' (List.mem_cons_of_mem c hc')

variable {nodes : List Node}

theorem matches_calls (hs : s.Typed R vars g) (hR : R.Suits ctx.functions)
    (hcs : CallsTyped R.bounds ⟨vars, R.calls⟩ (nodes.filterMap call?))
    (h : Gives (calls ctx s subject nodes) g s' g') :
    Evaluated R vars s s' g g' ∧ StaysMatched R vars s s' g g' fun M σ => M.Answers σ nodes := by
  unfold calls at h
  split at h
  · obtain ⟨rfl, rfl⟩ := gives_pure h
    exact ⟨.refl hs, fun _ _ hm _ => hm⟩
  · obtain ⟨g₁, h₁, rfl⟩ := of_aside h
    obtain ⟨he, hm⟩ := matches_contracts hs hR (fun c hc => hcs c (List.mem_reverse.mp hc)) h₁
    have hsame : g₁.Same { g₁ with made := g.made } := ⟨rfl, rfl, rfl⟩
    refine ⟨⟨he.frame, he.values, he.symbols, he.grows.trans hsame.grows, he.facts, he.typed.grow hsame.grows,
      he.adds⟩, fun hF hgF hσ hans => ?_⟩
    have hσ' := hm hF (hsame.grows.trans hgF) hσ fun c hc => hans c (List.mem_reverse.mp hc)
    exact ⟨hσ'.fits, hσ'.values, hσ'.facts⟩

/-- Where nothing is called, nothing is learned. -/
theorem eq_of_no_calls (hnone : nodes.filterMap call? = []) (h : Gives (calls ctx s subject nodes) g s' g') :
    s' = s ∧ g' = g := by
  unfold calls at h
  rw [hnone] at h
  split at h
  · exact gives_pure h
  · obtain ⟨g₁, h₁, rfl⟩ := of_aside h
    obtain ⟨rfl, rfl⟩ := gives_pure h₁
    exact ⟨rfl, rfl⟩

/-- Where nothing may be called, nothing is learned. -/
theorem eq_of_calls (hR : R.calls = []) (hcs : CallsTyped R.bounds ⟨vars, R.calls⟩ (nodes.filterMap call?))
    (h : Gives (calls ctx s subject nodes) g s' g') : s' = s ∧ g' = g := by
  refine eq_of_no_calls (List.eq_nil_iff_forall_not_mem.mpr fun c hc => ?_) h
  obtain ⟨callee, hcallee, -⟩ := hcs c hc
  simp [Scope.function?, hR] at hcallee

/-! ### Side conditions -/

theorem of_emitChecks {cs : List Check} {u : Unit}
    (h : Gives (emitChecks ctx s subject cs) g u g') :
    g.Grows g' ∧ g'.symbols = g.symbols ∧
      (∀ c ∈ cs, Emitted g' s (c.cond.subst s.values) ∧
        ∀ a ∈ c.cond.alikes g.symbols s.values, a ∈ g'.alikes) ∧
      Adds (fun o => o.assumptions = s.facts ∧ ∃ c ∈ cs, o.goal = c.cond.subst s.values) g g' := by
  induction cs generalizing g with
  | nil =>
    obtain ⟨-, rfl⟩ := gives_pure h
    exact ⟨.refl _, rfl, by simp, adds_of_eq rfl⟩
  | cons c cs ih =>
    obtain ⟨goal, g1, h1, h⟩ := h.bind
    obtain ⟨_, g2, h2, h3⟩ := h.bind
    obtain ⟨rfl, hgrow1, hsym1, hobl1, halike1⟩ := of_substFormula h1
    obtain ⟨hgrow2, hsym2, -, hemit2, hadds2⟩ := of_emit h2
    obtain ⟨hgrow3, hsym3, hall, hadds3⟩ := ih h3
    rw [hsym2, hsym1] at hall
    refine ⟨(hgrow1.trans hgrow2).trans hgrow3, (hsym3.trans hsym2).trans hsym1, ?_, ?_⟩
    · intro c' hc'
      rcases List.mem_cons.mp hc' with rfl | hc'
      · refine ⟨hemit2.grows hgrow3, fun a ha => ?_⟩
        exact (hgrow2.trans hgrow3).alikes.subset (halike1 a ha)
      · exact hall c' hc'
    · refine ((adds_of_eq hobl1).trans (hadds2.mono fun o ho => ?_)).trans (hadds3.mono fun o ho => ?_)
      · exact ⟨ho.1, c, List.mem_cons_self, ho.2⟩
      · obtain ⟨hfacts, c', hc', hgoal⟩ := ho
        exact ⟨hfacts, c', List.mem_cons_of_mem c hc', hgoal⟩

/-- What evaluating a node does: if its obligations are true it is well-defined, and if it is well-defined
they are true. -/
structure Conditions (R : Rules) (vars : NameMap Ty) (nodes : List Node)
    (defined : Interp → Valuation → Prop) (s s' : SymState) (g g' : Generator) : Prop
    extends Evaluated R vars s s' g g' where
  sound : ∀ {M : Machine} {gF : Generator} {ρ σ : Valuation}, Sound R M gF → g'.Grows gF →
    s.Matches M.interp vars g ρ σ → M.Answers σ nodes →
      defined M.interp σ ∧ s'.Matches M.interp vars g' ρ σ
  callFree : R.calls = [] → s' = s
  complete : R.calls = [] → (∀ n, R.bounds.lengths n → n < 2 ^ 31) → ∀ {I : Interp} {ρ σ : Valuation},
    I.Regular R.calls → I.Equates g'.alikes → s.Matches I vars g ρ σ → defined I σ →
      Adds (Obligation.HoldsAt I ρ) g g'

/-- What evaluating a value of some type does. -/
abbrev ValueConditions (R : Rules) (vars : NameMap Ty) (v : Value) (t : Ty) :=
  Conditions R vars (v.visit Frame.outsideQuantifiers) fun I ρ => t = .unit ∨ v.Defined I ρ

/-- What evaluating a formula does. -/
abbrev FormulaConditions (R : Rules) (vars : NameMap Ty) (f : Formula) :=
  Conditions R vars (f.visit Frame.outsideQuantifiers) fun I ρ => f.Defined I ρ

/-- What evaluating a formula and demanding that it is true does. -/
abbrev CheckConditions (R : Rules) (vars : NameMap Ty) (f : Formula) :=
  Conditions R vars (f.visit Frame.outsideQuantifiers) fun I ρ => f.Defined I ρ ∧ f.Holds I ρ

theorem of_conditions {cs : List Check} (hs : s.Typed R vars g) (hR : R.Suits ctx.functions)
    (hcs : ∀ I : Interp, I.Regular R.calls → Faithful R.bounds I ⟨vars, R.calls⟩ cs (defined I))
    (hnodes : CallsTyped R.bounds ⟨vars, R.calls⟩ (nodes.filterMap call?))
    (h : Gives (emitChecks ctx s subject cs >>= fun _ => calls ctx s subject nodes) g s' g') :
    Conditions R vars nodes defined s s' g g' := by
  have htyped : ∀ c ∈ cs, c.cond.Typed R.bounds ⟨vars, R.calls⟩ := by
    obtain ⟨I, hI⟩ := hR.possible
    exact (hcs I hI).typed
  obtain ⟨_, g1, h1, h2⟩ := h.bind
  obtain ⟨hgrow, hsym, hemit, hadds⟩ := of_emitChecks h1
  have hs1 : s.Typed R vars g1 := hs.grow hgrow
  obtain ⟨he, hm⟩ := matches_calls hs1 hR hnodes h2
  have he1 : Evaluated R vars s s g g1 :=
    ⟨rfl, rfl, hsym, hgrow, fun _ h => h, hs1, hadds.mono fun o ho f hf => ho.1 ▸ hf⟩
  refine ⟨he1.trans he, ?_, fun hcalls => (eq_of_calls hcalls hnodes h2).1, ?_⟩
  · intro M gF ρ σ hF hgF hσ hans
    have hσ1 : s.Matches M.interp vars g1 ρ σ := ⟨hsym ▸ hσ.fits, hσ.values, hσ.facts⟩
    refine ⟨(hcs M.interp hF.regular).sound σ (hσ.store_fits hs hF.regular) fun c hc => ?_,
      hm hF hgF hσ1 hans⟩
    obtain ⟨hc', halike⟩ := hemit c hc
    have hgoal := hF.discharged.goal hF.known (he.grows.trans hgF) hc' hs1
      ((htyped c hc).subst (hs1.respects _)) hσ1
    have ha := hF.of_grows (he.grows.trans hgF)
    exact (hσ.holds_subst hs hF.regular (htyped c hc) (ha.of_subset halike)).mp hgoal
  · intro hcalls hlen I ρ σ hI halikes hσ hdef o ho
    obtain ⟨-, rfl⟩ := eq_of_calls hcalls hnodes h2
    refine (hadds o ho).imp_right ?_
    rintro ⟨-, c, hc, hgoal⟩ -
    rw [hgoal, hσ.holds_subst hs hI (htyped c hc) (halikes.of_subset (hemit c hc).2)]
    exact (hcs I hI).complete hlen σ (hσ.store_fits hs hI) hdef c hc

theorem of_encoded {m : Encoding.EncodeM α} {a : α} (h : Gives (encoded m) g a g') :
    (∃ d d', Encoding.Ran m d a d') ∧ g' = g := by
  obtain ⟨hm, hg⟩ := Gives.ofFault h
  exact ⟨⟨default, (m.run.run default).2, Prod.ext hm rfl⟩, hg⟩

/-- What the side conditions of a value are: those of its encoding, unless it is a unit value. -/
inductive RunChecks (env : Encoding.Env) (v : Value) : List Check → Prop
  | unit {t} : v.typeOf env.scope = .ok t → t.underlying = .unit → RunChecks env v []
  | tuple {t ts r d d'} : v.typeOf env.scope = .ok t → t.underlying = .tuple ts →
      Encoding.RunTuple env v d r d' → RunChecks env v r.checks
  | value {t r d d'} : v.typeOf env.scope = .ok t → t.underlying ≠ .unit →
      Encoding.RunValue env v d r d' → RunChecks env v r.checks

theorem runs_valueChecks {env : Encoding.Env} {v : Value} {cs : List Check}
    {d d' : Declarations} (h : Encoding.Ran (valueChecks env v) d cs d') : RunChecks env v cs := by
  simp only [valueChecks, Encoding.ran_bind, Encoding.ran_lift] at h
  obtain ⟨t, _, ⟨ht, rfl⟩, h⟩ := h
  split at h
  · next hunit => exact (Encoding.ran_pure.mp h).1 ▸ .unit ht hunit
  · next ts hts =>
    simp only [Encoding.ran_bind, Encoding.ran_pure] at h
    obtain ⟨r, d₁, hr, rfl, rfl⟩ := h
    exact .tuple ht hts (Encoding.runs_tuple hr)
  · next hunit _ =>
    simp only [Encoding.ran_bind, Encoding.ran_pure] at h
    obtain ⟨r, d₁, hr, rfl, rfl⟩ := h
    exact .value ht hunit (Encoding.runs_value hr)

/-- The side conditions of a value say when it is well-defined, unless it is a unit value. -/
theorem faithful_valueChecks {Γ : Scope} {I : Interp} {env : Encoding.Env} {v : Value} {t : Ty}
    {cs : List Check} (h : RunChecks env v cs) (hΓ : env.Knows Γ)
    (hv : v.Typed fits Γ t) (hI : I.Regular Γ.functions) :
    Faithful fits I Γ cs fun ρ => t = .unit ∨ v.Defined I ρ := by
  obtain ⟨u, hu, hbare⟩ := Value.Typed.typeOf v (hv.extend v (hΓ.extends _))
  have hunder : u.underlying.bare = t := (Ty.bare_underlying u).trans hbare
  cases h with
  | unit hu' hunit =>
    obtain rfl := ok_unique hu hu'
    rw [hunit] at hunder
    exact .nil fun ρ => .inl hunder.symm
  | tuple hu' htuple hr =>
    obtain rfl := ok_unique hu hu'
    rw [htuple] at hunder
    refine (Encoding.faithful_tuple hr hΓ hv hI).congr fun ρ _ => ?_
    simp [← hunder, Ty.bare]
  | value hu' hunit hr =>
    obtain rfl := ok_unique hu hu'
    refine (Encoding.faithful_value hr hΓ hv hI).congr fun ρ _ => ?_
    exact (or_iff_right fun ht => hunit (Ty.bare_eq_unit (hbare.trans ht))).symm

/-- Whether the values of a program can be encoded in a state. -/
def Sees (ctx : GenContext) (R : Rules) (vars : NameMap Ty) (s : SymState) : Prop :=
  (Encoding.Env.ofScope (programScope ctx s)).Knows ⟨vars, R.calls⟩

theorem sees_of_covers {e : Scoping.Env} (h : s.frame.Covers ctx.functions e)
    (hR : R.Suits ctx.functions) (hvars : ∀ x t, vars.get? x = some t → s.frame.type? x = some t) :
    Sees ctx R vars s := by
  refine ⟨fun x t hx => h.scopeOver ctx.ghosts (hvars x t hx), fun f callee hf => ?_⟩
  change s.frame.functions.find? _ = some callee
  rw [h.functions]
  exact hR.calls f callee hf

/-! ### Evaluation -/

theorem Conditions.grow {g'' : Generator} (h : Conditions R vars nodes defined s s' g g')
    (hgrow : g'.Grows g'') (hsym : g''.symbols = g'.symbols)
    (hobl : g''.obligations = g'.obligations) : Conditions R vars nodes defined s s' g g'' := by
  refine ⟨⟨h.frame, h.values, hsym.trans h.symbols, h.grows.trans hgrow, h.facts,
    h.typed.grow hgrow, h.adds.trans (adds_of_eq hobl)⟩, ?_, h.callFree, ?_⟩
  · intro M gF ρ σ hF hgF hm hans
    obtain ⟨hdef, hm'⟩ := h.sound hF (hgrow.trans hgF) hm hans
    exact ⟨hdef, hm'.withSymbols hsym⟩
  · intro hcalls hlen I ρ σ hI ha hm hdef
    exact (h.complete hcalls hlen hI (hgrow.equates ha) hm hdef).trans (adds_of_eq hobl)

section Evaluators

variable (hs : s.Typed R vars g) (hR : R.Suits ctx.functions) (hsees : Sees ctx R vars s)
include hs hR hsees

theorem of_conditionsOfValue {v : Value} {t : Ty} (hv : v.Typed R.bounds ⟨vars, R.calls⟩ t)
    (h : Gives (conditionsOfValue ctx s subject v) g s' g') :
    ValueConditions R vars v t s s' g g' := by
  obtain ⟨cs, g1, h1, h2⟩ := h.bind
  obtain ⟨⟨_, _, hcs⟩, rfl⟩ := of_encoded h1
  exact of_conditions hs hR (fun I hI => faithful_valueChecks (runs_valueChecks hcs) hsees hv hI)
    (hv.calls v) h2

theorem of_conditionsOfFormula {f : Formula} (hf : f.Typed R.bounds ⟨vars, R.calls⟩)
    (h : Gives (conditionsOfFormula ctx s subject f) g s' g') :
    FormulaConditions R vars f s s' g g' := by
  obtain ⟨r, g1, h1, h2⟩ := h.bind
  obtain ⟨⟨_, _, hr⟩, rfl⟩ := of_encoded h1
  exact of_conditions hs hR
    (fun I hI => Encoding.faithful_formula (Encoding.runs_formula hr) hsees hf hI) (hf.calls f) h2

theorem of_value {v w : Value} {t : Ty} (hv : v.Typed R.bounds ⟨vars, R.calls⟩ t)
    (h : Gives (value ctx s subject v) g (w, s') g') :
    ValueConditions R vars v t s s' g g' ∧ w.Typed R.bounds (g'.scope R) t ∧
      Meant R vars s g g' fun I ρ σ => w.eval I ρ = v.eval I σ := by
  obtain ⟨s1, g1, h1, h⟩ := h.bind
  obtain ⟨w1, g2, h2, h3⟩ := h.bind
  have hcond := of_conditionsOfValue hs hR hsees hv h1
  have hvt := hv.subst (hcond.typed.respects v.freeVars)
  obtain ⟨hw, hgrow, hsym, hobl, halike⟩ := of_substValue h2
  obtain rfl := hw hvt.isWhole
  obtain ⟨heq, rfl⟩ := gives_pure h3
  cases heq
  refine ⟨hcond.grow hgrow hsym hobl, hvt.extend _ (hgrow.extends R _), fun hI ha hm => ?_⟩
  rw [hcond.values]
  rw [hcond.values, hcond.symbols] at halike
  exact hm.eval_subst hs hI hv (ha.of_subset halike)

theorem of_formula {f f' : Formula} (hf : f.Typed R.bounds ⟨vars, R.calls⟩)
    (h : Gives (formula ctx s subject f) g (f', s') g') :
    FormulaConditions R vars f s s' g g' ∧
      f'.Typed R.bounds (g'.scope R) ∧
      Meant R vars s g g' fun I ρ σ => f'.Holds I ρ ↔ f.Holds I σ := by
  obtain ⟨s1, g1, h1, h⟩ := h.bind
  obtain ⟨f1, g2, h2, h3⟩ := h.bind
  have hcond := of_conditionsOfFormula hs hR hsees hf h1
  have hft := hf.subst (hcond.typed.respects f.freeVars)
  obtain ⟨rfl, hgrow, hsym, hobl, halike⟩ := of_substFormula h2
  obtain ⟨heq, rfl⟩ := gives_pure h3
  cases heq
  refine ⟨hcond.grow hgrow hsym hobl, hft.extend _ (hgrow.extends R _), fun hI ha hm => ?_⟩
  rw [hcond.values]
  rw [hcond.values, hcond.symbols] at halike
  exact hm.holds_subst hs hI hf (ha.of_subset halike)

theorem of_expr {e e' : Expr} (he : e.Typed R.bounds ⟨vars, R.calls⟩ .i32)
    (h : Gives (expr ctx s subject e) g (e', s') g') :
    ValueConditions R vars e.toValue .i32 s s' g g' ∧
      e'.Typed R.bounds (g'.scope R) .i32 ∧
      Meant R vars s g g' fun I ρ σ => e'.eval I ρ = e.eval I σ := by
  obtain ⟨s1, g1, h1, h⟩ := h.bind
  obtain ⟨e1, g2, h2, h3⟩ := h.bind
  have hcond := of_conditionsOfValue hs hR hsees he.toValue h1
  have het := he.subst (hcond.typed.respects e.freeVars)
  obtain ⟨rfl, hgrow, hsym, hobl, halike⟩ := of_substExpr h2
  obtain ⟨heq, rfl⟩ := gives_pure h3
  cases heq
  refine ⟨hcond.grow hgrow hsym hobl, het.extend _ (hgrow.extends R _), fun hI ha hm => ?_⟩
  rw [hcond.values]
  rw [hcond.values, hcond.symbols] at halike
  exact hm.eval_substExpr hs hI he (ha.of_subset halike)

/-- A formula that is checked is well-defined and true exactly if its obligations are. -/
theorem of_check {f : Formula} {kind : ObligationKind} (hf : f.Typed R.bounds ⟨vars, R.calls⟩)
    (h : Gives (check ctx s kind subject f) g s' g') :
    CheckConditions R vars f s s' g g' := by
  obtain ⟨⟨f', s1⟩, g1, h1, h⟩ := h.bind
  obtain ⟨_, g2, h2, h3⟩ := h.bind
  obtain ⟨hcond, hft, hmean⟩ := of_formula hs hR hsees hf h1
  obtain ⟨hgrow, -, -, -, hadds⟩ := of_emit h2
  obtain ⟨rfl, rfl⟩ := gives_pure h3
  refine ⟨hcond.toEvaluated.emit h2, ?_, hcond.callFree, ?_⟩
  · intro M gF ρ σ hF hgF hm hans
    obtain ⟨hdef, hm1⟩ := hcond.sound hF (hgrow.trans hgF) hm hans
    obtain ⟨hgoal, hm2⟩ := hF.emit hgF hcond.typed h2 hft hm1
    exact ⟨⟨hdef, (hmean hF.regular (hF.of_grows (hgrow.trans hgF)) hm).mp hgoal⟩, hm2⟩
  · intro hcalls hlen I ρ σ hI ha hm hdef
    have ha1 := hgrow.equates ha
    refine (hcond.complete hcalls hlen hI ha1 hm hdef.1).trans (hadds.mono fun o ho _ => ?_)
    rw [ho.2]
    exact (hmean hI ha1 hm).mpr hdef.2

end Evaluators

end Generation

/-! ### Evaluation in a run -/

namespace Machine

variable {M : Machine} {σ : Valuation} {safe : Prop}
variable {f : Formula} {P : Unit → Prop} {I : Interp} {nodes : List Node} {violation : Violation}

theorem ensures_evaluate {defined : Prop} {a : α} {P : α → Prop}
    (h : M.Answers σ nodes → (safe → defined) ∧ P a) :
    (M.evaluate σ nodes defined a).Ensures safe P := by
  unfold evaluate
  split_ifs with hans hdef
  · exact (h hans).2
  · exact fun hsafe => hdef ((h hans).1 hsafe)
  · trivial

/-- Where all calls are answered, what does not go wrong is well-defined. -/
theorem of_ensures_evaluate {defined : Prop} {a : α} {P : α → Prop}
    (h : ((ofInterp I).evaluate σ nodes defined a).Ensures True P) :
    defined ∧ P a ∧ (ofInterp I).evaluate σ nodes defined a = .done a := by
  have hans : (ofInterp I).Answers σ nodes := fun _ _ => trivial
  unfold evaluate at h ⊢
  rw [if_pos hans] at h ⊢
  split_ifs at h ⊢ with hdef
  · exact ⟨hdef, h, rfl⟩
  · exact absurd trivial h

theorem ensures_await (h : M.Answers σ nodes → P ()) : (M.await σ nodes).Ensures safe P := by
  unfold await
  split_ifs with hans
  · exact h hans
  · trivial

theorem ensures_truth {P : Bool → Prop}
    (h : M.Answers σ (f.visit Frame.outsideQuantifiers) → (safe → f.Defined M.interp σ) ∧
      ∀ b : Bool, (b = true ↔ f.Holds M.interp σ) → P b) :
    (M.truth σ f).Ensures safe P :=
  ensures_evaluate fun hans => ⟨(h hans).1, (h hans).2 _ (by simp)⟩

open Classical in
theorem of_ensures_truth {P : Bool → Prop} (h : ((ofInterp I).truth σ f).Ensures True P) :
    f.Defined I σ ∧ ∃ b : Bool, (b = true ↔ f.Holds I σ) ∧ P b ∧ (ofInterp I).truth σ f = .done b := by
  obtain ⟨hdef, hP, hrun⟩ := of_ensures_evaluate h
  exact ⟨hdef, _, decide_eq_true_iff, hP, hrun⟩

theorem ensures_check
    (h : M.Answers σ (f.visit Frame.outsideQuantifiers) → (f.Defined M.interp σ ∧ f.Holds M.interp σ) ∧ P ()) :
    (M.check σ violation f).Ensures safe P := by
  unfold check
  rw [Ending.ensures_bind]
  refine ensures_truth fun hans => ⟨fun _ => (h hans).1.1, fun b hb => ?_⟩
  rw [if_pos (hb.mpr (h hans).1.2)]
  exact (h hans).2

theorem check_of_not_answers (h : ¬ M.Answers σ (f.visit Frame.outsideQuantifiers)) :
    M.check σ violation f = .unfinished := by
  unfold check truth evaluate
  rw [if_neg h]
  rfl

theorem of_ensures_check (h : ((ofInterp I).check σ violation f).Ensures True P) :
    (f.Defined I σ ∧ f.Holds I σ) ∧ P () ∧ (ofInterp I).check σ violation f = .done () := by
  unfold check at h ⊢
  rw [Ending.ensures_bind] at h
  obtain ⟨hdef, b, hb, h, hrun⟩ := of_ensures_truth h
  rw [hrun, Ending.done_bind]
  split_ifs at h ⊢ with hbt
  · exact ⟨⟨hdef, hb.mp hbt⟩, h, rfl⟩
  · exact absurd trivial h

theorem ensures_assume
    (h : M.Answers σ (f.visit Frame.outsideQuantifiers) →
      (safe → f.Defined M.interp σ) ∧ (f.Holds M.interp σ → P ())) :
    (M.assume σ f).Ensures safe P := by
  unfold assume
  rw [Ending.ensures_bind]
  refine ensures_truth fun hans => ⟨(h hans).1, fun b hb => ?_⟩
  by_cases hf : f.Holds M.interp σ
  · rw [if_pos (hb.mpr hf)]
    exact (h hans).2 hf
  · rw [if_neg (hb.not.mpr hf)]
    trivial

theorem of_ensures_assume (h : ((ofInterp I).assume σ f).Ensures True P) :
    f.Defined I σ ∧ (f.Holds I σ → P () ∧ (ofInterp I).assume σ f = .done ()) := by
  unfold assume at h ⊢
  rw [Ending.ensures_bind] at h
  obtain ⟨hdef, b, hb, h, hrun⟩ := of_ensures_truth h
  refine ⟨hdef, fun hf => ?_⟩
  rw [if_pos (hb.mpr hf)] at h
  rw [hrun, Ending.done_bind, if_pos (hb.mpr hf)]
  exact ⟨h, rfl⟩

end Machine

end Verdict
