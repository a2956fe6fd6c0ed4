import Verdict.Proofs.Rendering

/-! # What encoding declares

An encoding that succeeds declares all constants that its free variables stand for, each with its sort,
and nothing but such constants and the functions of the scope. Nothing is declared for a variable that
is bound around it. -/

namespace Verdict

open Encoding

/-! ### The names of a scope -/

/-- The constants of the solver for a variable, with their sorts. -/
inductive Scope.Symbol (Γ : Scope) (x : String) : String → SmtSort → Prop
  | self {t : Ty} {s : SmtSort} : Γ.type? x = some t → t.sortOf = .ok s → Symbol Γ x x s
  | part {t u : Ty} {ts : List Ty} {s : SmtSort} : Γ.type? x = some t → t.underlying = .tuple ts →
    u ∈ ts → u.sortOf = .ok s → Symbol Γ x (partName x s) (.array s)

/-- The functions of the solver for a function, with the sorts of their results. -/
inductive Function.Symbol (g : Function) : String → SmtSort → Prop
  | self {s : SmtSort} : g.output.sortOf = .ok s → Symbol g (functionName g.name) s
  | part {u : Ty} {ts : List Ty} {s : SmtSort} : g.output.underlying = .tuple ts → u ∈ ts →
    u.sortOf = .ok s → Symbol g (partName (functionName g.name) s) (.array s)

/-- The names that the solver needs for parts of tuples and for functions. -/
inductive Scope.Reserves (Γ : Scope) : String → Prop
  | part {x : String} {t u : Ty} {ts : List Ty} {s : SmtSort} : Γ.type? x = some t →
    t.underlying = .tuple ts → u ∈ ts → u.sortOf = .ok s → Reserves Γ (partName x s)
  | function {f : String} {g : Function} : Γ.function? f = some g → Reserves Γ (functionName f)
  | result {f : String} {g : Function} (s : SmtSort) : Γ.function? f = some g →
    Reserves Γ (partName (functionName f) s)

/-- Whether only names of a scope are declared. -/
structure Declarations.Within (d : Declarations) (Γ : Scope) : Prop where
  consts : ∀ n s, d.consts.get? n = some s → ∃ x, Γ.Symbol x n s
  funs : ∀ n sig, d.funs.get? n = some sig → ∃ f g, Γ.function? f = some g ∧ g.Symbol n sig.result

/-- Whether all constants for a variable are declared. A tuple has one for each of its elements. -/
structure Scope.Declared (Γ : Scope) (d : Declarations) (x : String) : Prop where
  symbols : ∀ n s, Γ.Symbol x n s → d.consts.contains n = true
  sorts : ∀ t ts, Γ.type? x = some t → t.underlying = .tuple ts → ∀ u ∈ ts, ∃ s, u.sortOf = .ok s

theorem Scope.Declared.mono {Γ : Scope} {d d' : Declarations} {x : String} (h : Γ.Declared d x)
    (hd : ∀ n, d.consts.contains n = true → d'.consts.contains n = true) : Γ.Declared d' x :=
  ⟨fun n s hn => hd n (h.symbols n s hn), h.sorts⟩

/-- Whether an environment is that of a scope, with bound variables that are not reserved. -/
structure Encoding.Env.Below (env : Env) (Γ : Scope) : Prop where
  free : ∀ x ∉ env.bound, env.scope.type? x = Γ.type? x
  bound : ∀ x ∈ env.bound, ¬ Γ.Reserves x ∧ ∃ t s, env.scope.type? x = some t ∧ t.sortOf = .ok s
  function : ∀ f, env.scope.function? f = Γ.function? f

namespace Encoding

theorem Env.below_ofScope (Γ : Scope) : (Env.ofScope Γ).Below Γ :=
  ⟨fun _ _ => rfl, fun _ h => absurd h (by simp [Env.ofScope]), fun _ => rfl⟩

variable {x y n : String} {t : Ty} {ts : List Ty} {s : SmtSort} {u : Unit}

theorem Env.Below.bind {env : Env} {Γ : Scope} (h : env.Below Γ) (hx : ¬ Γ.Reserves x) (hs : t.sortOf = .ok s) :
    (env.bind x t).Below Γ := by
  refine ⟨fun y hy => ?_, fun y hy => ?_, h.function⟩
  · simp only [Env.bind, List.mem_cons, not_or] at hy
    simp only [Env.bind, Scope.type?_declare, if_neg (Ne.symm hy.1), h.free y hy.2]
  · simp only [Env.bind, Scope.type?_declare]
    by_cases hxy : x = y
    · subst hxy
      exact ⟨hx, t, s, if_pos rfl, hs⟩
    · have hy' : y ∈ env.bound := (List.mem_cons.mp hy).resolve_left (Ne.symm hxy)
      simpa only [if_neg hxy] using h.bound y hy'

/-- A tuple is not bound, and has its type in the scope. -/
theorem Env.Below.tuple {env : Env} {Γ : Scope} (h : env.Below Γ) (ht : env.scope.type? x = some t)
    (hts : t.underlying = .tuple ts) : Γ.type? x = some t := by
  rw [← ht, h.free]
  intro hx
  obtain ⟨-, u, s, hu, hs⟩ := h.bound x hx
  obtain rfl := Option.mem_unique ht hu
  exact Ty.sortOf_of_underlying_tuple hts s hs

/-- The variables among some names that are not bound. -/
def Env.Free (env : Env) (xs : Names) (y : String) : Prop := y ∈ xs.members ∧ y ∉ env.bound

theorem Env.Free.union {env : Env} {xs ys : Names} (h : env.Free (xs.union ys) y) :
    env.Free xs y ∨ env.Free ys y := by
  obtain ⟨hmem, hbound⟩ := h
  rw [SortedSet.mem_union] at hmem
  exact hmem.imp (⟨·, hbound⟩) (⟨·, hbound⟩)

theorem Env.Free.single {env : Env} (h : env.Free (Names.single x) y) : y = x ∧ y ∉ env.bound :=
  ⟨by simpa using h.1, h.2⟩

theorem Env.Free.bind {env : Env} {xs : Names} (h : env.Free (xs.erase x) y) : (env.bind x t).Free xs y := by
  obtain ⟨hmem, hbound⟩ := h
  rw [SortedSet.mem_erase] at hmem
  exact ⟨by tauto, by simp [Env.bind]; tauto⟩

/-! ### What is declared -/

variable {Γ : Scope} {N K : String → Prop} {env : Env} {d d₁ d' : Declarations} {xs ys : Names}

/-- Whether only declarations of a scope have been added, all those for some variables among them. -/
structure Adds (Γ : Scope) (N : String → Prop) (d d' : Declarations) : Prop where
  within : d.Within Γ → d'.Within Γ
  grows : ∀ n, d.consts.contains n = true → d'.consts.contains n = true
  declared : ∀ x, N x → Γ.Declared d' x

namespace Adds

theorem mono (h : Adds Γ N d d') (hN : ∀ x, K x → N x) : Adds Γ K d d' :=
  ⟨h.within, h.grows, fun x hx => h.declared x (hN x hx)⟩

theorem none : Adds Γ (fun _ => False) d d := ⟨id, fun _ => id, fun _ => False.elim⟩

theorem trans (h : Adds Γ N d d₁) (h' : Adds Γ K d₁ d') : Adds Γ (fun x => N x ∨ K x) d d' :=
  ⟨fun hd => h'.within (h.within hd), fun n hn => h'.grows n (h.grows n hn), fun x hx =>
    hx.elim (fun hx => (h.declared x hx).mono h'.grows) (h'.declared x)⟩

/-- A step that is only followed. -/
theorem after (h : Adds Γ N d d₁) (h' : Adds Γ K d₁ d') : Adds Γ K d d' := (h.trans h').mono fun _ => .inr

theorem union (h : Adds Γ (env.Free xs) d d₁) (h' : Adds Γ (env.Free ys) d₁ d') :
    Adds Γ (env.Free (xs.union ys)) d d' := (h.trans h').mono fun _ hx => hx.union

theorem empty : Adds Γ (env.Free .empty) d d := none.mono fun x hx => by simp [Env.Free] at hx

/-- The index of an element of a tuple is a constant. -/
theorem index {i : Value} {n : ℕ} (hn : i.constantIndex? = some n) :
    Adds Γ (env.Free i.freeVars) d d :=
  none.mono fun x hx => Value.in_of_constantIndex (K := fun _ => False) hn x hx.1

end Adds

theorem contains_insert_of_contains {γ : Type} {m : NameMap γ} (x : String) (a : γ) (h : m.contains n = true) :
    (m.insert x a).contains n = true := by
  rw [NameMap.contains_iff] at h ⊢
  rw [NameMap.get?_insert]
  split_ifs
  · exact ⟨a, rfl⟩
  · exact h

theorem contains_insert_self {γ : Type} (m : NameMap γ) (x : String) (a : γ) :
    (m.insert x a).contains x = true := by
  rw [NameMap.contains_iff, NameMap.get?_insert]
  exact ⟨a, if_pos rfl⟩

/-- Declaring a constant of the scope, where it is not bound. -/
theorem Ran.declareConst (hrun : Ran (declareConst env n s) d u d') (hn : n ∉ env.bound) (hx : Γ.Symbol x n s) :
    Adds Γ (fun _ => False) d d' ∧ d'.consts.contains n = true := by
  rw [Encoding.declareConst, if_neg (by simpa using hn)] at hrun
  obtain rfl : ({ d with consts := d.consts.insert n s } : Declarations) = d' :=
    congrArg Prod.snd hrun
  refine ⟨⟨fun h => ⟨fun k s' hk => ?_, h.funs⟩, fun k => contains_insert_of_contains _ _,
    fun _ => False.elim⟩, contains_insert_self _ _ _⟩
  rw [NameMap.get?_insert] at hk
  split_ifs at hk with hnk
  · obtain rfl := Option.some_inj.mp hk
    exact ⟨x, hnk ▸ hx⟩
  · exact h.consts k s' hk

theorem adds_declareConst (hΓ : env.Below Γ) (ht : env.scope.type? x = some t) (hs : t.sortOf = .ok s)
    (hrun : Ran (declareConst env x s) d u d') : Adds Γ (env.Free (Names.single x)) d d' := by
  by_cases hx : x ∈ env.bound
  · rw [declareConst, if_pos (by simpa using hx), ran_pure] at hrun
    obtain rfl := hrun.2
    exact Adds.none.mono fun y hy => hy.single.2 (hy.single.1 ▸ hx)
  · have ht' : Γ.type? x = some t := by rw [← hΓ.free x hx, ht]
    obtain ⟨hadds, hself⟩ := hrun.declareConst hx (.self ht' hs)
    refine ⟨hadds.within, hadds.grows, fun y hy => ?_⟩
    obtain ⟨rfl, -⟩ := hy.single
    have hnot : ∀ u ts, Γ.type? y = some u → u.underlying ≠ .tuple ts := by
      intro u ts hu hts
      obtain rfl := Option.mem_unique ht' hu
      exact Ty.sortOf_of_underlying_tuple hts s hs
    refine ⟨fun n s' hn => ?_, fun u ts hu hts => absurd hts (hnot u ts hu)⟩
    cases hn with
    | self _ _ => exact hself
    | part hu hts _ _ => exact absurd hts (hnot _ _ hu)

/-- The parts of a tuple are declared one after the other. -/
theorem Ran.parts_declared (hΓ : env.Below Γ) (ht : Γ.type? x = some t) (hts : t.underlying = .tuple ts) :
    ∀ {us : List Ty} {parts parts' : NameMap Term} {d d' : Declarations}, (∀ u ∈ us, u ∈ ts) →
      Ran (Encoding.namedTuple env x parts us) d parts' d' → Adds Γ (fun _ => False) d d' ∧
        ∀ u ∈ us, ∃ s, u.sortOf = .ok s ∧ d'.consts.contains (partName x s) = true
  | [], parts, parts', d, d', hus, hrun => by
    obtain ⟨-, rfl⟩ := ran_pure.mp hrun
    exact ⟨.none, by simp⟩
  | u :: us, parts, parts', d, d', hus, hrun => by
    simp only [Encoding.namedTuple, ran_bind, ran_orFail] at hrun
    obtain ⟨s, _, ⟨hsort, rfl⟩, _, d₁, hdecl, hrun⟩ := hrun
    have hu : u ∈ ts := hus u List.mem_cons_self
    have hbound : partName x s ∉ env.bound := fun h => (hΓ.bound _ h).1 (.part ht hts hu hsort)
    obtain ⟨hadds₁, hself⟩ := hdecl.declareConst hbound (.part ht hts hu hsort)
    obtain ⟨hadds, hall⟩ := parts_declared hΓ ht hts
      (fun w hw => hus w (List.mem_cons_of_mem u hw)) hrun
    refine ⟨hadds₁.after hadds, ?_⟩
    simp only [List.forall_mem_cons]
    exact ⟨⟨s, hsort, hadds.grows _ hself⟩, hall⟩

theorem adds_namedTuple {parts parts' : NameMap Term} (hΓ : env.Below Γ) (hu : env.scope.type? x = some t)
    (hts : t.underlying = .tuple ts) (hrun : Ran (namedTuple env x parts ts) d parts' d') :
    Adds Γ (env.Free (Names.single x)) d d' := by
  have ht := hΓ.tuple hu hts
  obtain ⟨hadds, hall⟩ := hrun.parts_declared hΓ ht hts fun _ => id
  refine ⟨hadds.within, hadds.grows, fun y hy => ?_⟩
  obtain ⟨rfl, -⟩ := hy.single
  refine ⟨fun n s hn => ?_, fun u us hu hus w hw => ?_⟩
  · cases hn with
    | self hu hs =>
      obtain rfl := Option.mem_unique ht hu
      exact absurd hs (Ty.sortOf_of_underlying_tuple hts _)
    | part hu hus hw hs =>
      obtain rfl := Option.mem_unique ht hu
      obtain rfl := Ty.tuple.inj (hts.symm.trans hus)
      obtain ⟨s', hs', hcontains⟩ := hall _ hw
      obtain rfl := ok_unique hs hs'
      exact hcontains
  · obtain rfl := Option.mem_unique ht hu
    obtain rfl := Ty.tuple.inj (hts.symm.trans hus)
    obtain ⟨s, hs, -⟩ := hall w hw
    exact ⟨s, hs⟩

theorem adds_declareFun {f : String} {g : Function} {sig : FunctionSort} (hg : Γ.function? f = some g)
    (hn : g.Symbol n sig.result) (hrun : Ran (declareFun n sig) d u d') : Adds Γ (fun _ => False) d d' := by
  obtain rfl : ({ d with funs := d.funs.insert n sig } : Declarations) = d' :=
    congrArg Prod.snd hrun
  refine ⟨fun h => ⟨h.consts, fun k sig' hk => ?_⟩, fun _ => id, fun _ => False.elim⟩
  rw [NameMap.get?_insert] at hk
  split_ifs at hk with hnk
  · obtain rfl := Option.some_inj.mp hk
    exact ⟨f, g, hg, hnk ▸ hn⟩
  · exact h.funs k sig' hk

theorem adds_callParts {f : String} {g : Function} {as : EncodedArgs} (hg : Γ.function? f = some g)
    (hts : g.output.underlying = .tuple ts) :
    ∀ {ss : List SmtSort} {parts parts' : NameMap Term} {d d' : Declarations},
      (∀ s ∈ ss, ∃ u ∈ ts, u.sortOf = .ok s) → Ran (callParts f as parts ss) d parts' d' →
        Adds Γ (fun _ => False) d d'
  | [], parts, parts', d, d', _, hrun => (ran_pure.mp hrun).2 ▸ .none
  | s :: ss, parts, parts', d, d', hss, hrun => by
    obtain ⟨u, hu, hs⟩ := hss s List.mem_cons_self
    obtain rfl := Scope.name_of_function? hg
    simp only [callParts, ran_bind] at hrun
    obtain ⟨_, d₁, hdecl, hrun⟩ := hrun
    exact (adds_declareFun hg (.part hts hu hs) hdecl).after
      (adds_callParts hg hts (fun s' hs' => hss s' (List.mem_cons_of_mem s hs')) hrun)

/-! ### Encodings -/

mutual

theorem adds_place {p env d d' r} (h : RunPlace env p d r d') (hΓ : env.Below Γ)
    (hb : Spares Γ.Reserves p.binders) : Adds Γ (env.Free p.freeVars) d d' := by
  cases h with
  | name ht hs hd => exact adds_declareConst hΓ ht hs hd
  | array ht he hs hd hi =>
    have hts := Ty.sortOf_of_underlying_array he hs
    exact (adds_declareConst hΓ ht hts hd).union (adds_value hi hΓ hb)
  | tuple ht hts hparts hn => exact (adds_namedTuple hΓ ht hts hparts).union (.index hn)

theorem adds_value {v env d d' r} (h : RunValue env v d r d') (hΓ : env.Below Γ)
    (hb : Spares Γ.Reserves v.binders) : Adds Γ (env.Free v.freeVars) d d' := by
  cases h with
  | expr he => exact adds_expr he hΓ hb
  | formula hf => exact adds_formula hf hΓ hb
  | place hp => exact adds_place hp hΓ hb
  | array hv hvs => exact (adds_value hv hΓ hb.left).union (adds_elements hvs hΓ hb.right)
  | call hg hs has hd =>
    rw [hΓ.function] at hg
    obtain rfl := Scope.name_of_function? hg
    exact ((adds_args has hΓ hb).trans (adds_declareFun hg (.self hs) hd)).mono fun _ => .inl
  | ref hv | deref hv => exact (adds_value hv hΓ hb :)
  | ite hc hv hw =>
    exact ((adds_formula hc hΓ hb.left.left).union (adds_value hv hΓ hb.left.right)).union
      (adds_value hw hΓ hb.right)
  | element hb' hn => exact (adds_tuple hb' hΓ hb.left).union (.index hn)
  | select _ _ hb' hi => exact (adds_value hb' hΓ hb.left).union (adds_value hi hΓ hb.right)
  | store hb' hi _ he =>
    exact ((adds_value hb' hΓ hb.left.left).union (adds_value hi hΓ hb.left.right)).union
      (adds_value he hΓ hb.right)

theorem adds_elements {vs env array r s i d d'} (h : RunElements env array s i vs d r d')
    (hΓ : env.Below Γ) (hb : Spares Γ.Reserves (Value.bindersAll vs)) :
    Adds Γ (env.Free (Value.freeVarsAll vs)) d d' := by
  cases h with
  | nil => exact .empty
  | cons hv _ hvs => exact (adds_value hv hΓ hb.left).union (adds_elements hvs hΓ hb.right)

theorem adds_args {vs env d d' as} (h : RunArgs env vs d as d') (hΓ : env.Below Γ)
    (hb : Spares Γ.Reserves (Value.bindersAll vs)) :
    Adds Γ (env.Free (Value.freeVarsAll vs)) d d' := by
  cases h with
  | nil => exact .empty
  | tuple _ _ hv hvs => exact (adds_tuple hv hΓ hb.left).union (adds_args hvs hΓ hb.right)
  | value _ _ hv hvs => exact (adds_value hv hΓ hb.left).union (adds_args hvs hΓ hb.right)

theorem adds_tuple {v env d d' r} (h : RunTuple env v d r d') (hΓ : env.Below Γ)
    (hb : Spares Γ.Reserves v.binders) : Adds Γ (env.Free v.freeVars) d d' := by
  cases h with
  | name ht hts hparts => exact adds_namedTuple hΓ ht hts hparts
  | literal _ _ hvs => exact adds_literal hvs hΓ hb
  | ref _ _ hv | deref _ _ hv => exact (adds_tuple hv hΓ hb :)
  | ite _ _ hc hv hw =>
    exact ((adds_formula hc hΓ hb.left.left).union (adds_tuple hv hΓ hb.left.right)).union
      (adds_tuple hw hΓ hb.right)
  | store _ _ hb' hn _ he =>
    exact ((adds_tuple hb' hΓ hb.left.left).union (.index hn)).union (adds_value he hΓ hb.right)
  | call hg hts has hparts =>
    rw [hΓ.function] at hg
    exact ((adds_args has hΓ hb).trans
      (adds_callParts hg hts (fun _ => mem_tupleSorts.mp) hparts)).mono fun _ => .inl

theorem adds_literal {vs env cs parts i d d' r} (h : RunLiteral env cs parts i vs d r d')
    (hΓ : env.Below Γ) (hb : Spares Γ.Reserves (Value.bindersAll vs)) :
    Adds Γ (env.Free (Value.freeVarsAll vs)) d d' := by
  cases h with
  | nil => exact .empty
  | cons hv hvs => exact (adds_value hv hΓ hb.left).union (adds_literal hvs hΓ hb.right)

theorem adds_expr {e env d d' r} (h : RunExpr env e d r d') (hΓ : env.Below Γ)
    (hb : Spares Γ.Reserves e.binders) : Adds Γ (env.Free e.freeVars) d d' := by
  cases h with
  | num => exact .empty
  | value hv => exact adds_value hv hΓ hb
  | op ha _ hb' => exact (adds_expr ha hΓ hb.left).union (adds_expr hb' hΓ hb.right)

/-- An encoding declares the constants of the free variables of a formula. -/
theorem adds_formula {f env d d' r} (h : RunFormula env f d r d') (hΓ : env.Below Γ)
    (hb : Spares Γ.Reserves f.binders) : Adds Γ (env.Free f.freeVars) d d' := by
  cases h with
  | lit => exact .empty
  | and hf hg | or hf hg => exact (adds_formula hf hΓ hb.left).union (adds_formula hg hΓ hb.right)
  | not hf => exact (adds_formula hf hΓ hb :)
  | value hv => exact adds_value hv hΓ hb
  | equal ha hb' | compare ha hb' =>
    exact (adds_expr ha hΓ hb.left).union (adds_expr hb' hΓ hb.right)
  | quant hs hf =>
    exact (adds_formula hf (hΓ.bind hb.head hs) hb.tail).mono fun y hy => Env.Free.bind hy

end

end Encoding

end Verdict
