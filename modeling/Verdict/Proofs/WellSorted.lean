import Verdict.Proofs.Frames
import Verdict.Proofs.Kinds
import Verdict.Proofs.Queries

/-! # Well-sorted queries

The sort of a term follows from the sorts of bound variables and from declarations. A well-sorted node
can be encoded, and the terms that it becomes are well-sorted under what has been declared for it
(`Encoding.encodes_value`). So the query for a well-sorted obligation can be made and written, and all
its assertions are of the sort of truth values (`Obligation.query_wellSorted`). -/

namespace Verdict

open Encoding

/-! ### The sorts of terms -/

namespace Term

/-- The sort of an application of an operator of the solver to arguments of some sorts. -/
def operatorSort? : String → List SmtSort → Option SmtSort
  | "not", [.bool] | "=>", [.bool, .bool] => some .bool
  | "and", ss | "or", ss => if ss.all (· = .bool) then some .bool else none
  | "=", [s, s'] => if s = s' then some .bool else none
  | "ite", [.bool, s, s'] => if s = s' then some s else none
  | "select", [.array s, .int] => some s
  | "store", [.array s, .int, s'] => if s = s' then some (.array s) else none
  | "+", [.int, .int] | "-", [.int, .int] | "*", [.int, .int] | "div", [.int, .int]
  | "mod", [.int, .int] => some .int
  | ">=", [.int, .int] | "<=", [.int, .int] | ">", [.int, .int] | "<", [.int, .int] => some .bool
  | _, _ => none

/-- The sort of an application of a declared function. A bound variable of the same name hides it. -/
def functionSort? (d : Declarations) (bound : NameMap SmtSort) (fn : String) (args : List SmtSort) :
    Option SmtSort :=
  if bound.contains fn then none
  else (d.funs.get? fn).bind fun sig => if sig.args = args then some sig.result else none

mutual

/-- The sort of a term, if it is well-sorted under some declarations and below binders of some
variables. -/
def sort? (d : Declarations) (bound : NameMap SmtSort) : Term → Option SmtSort
  | const x => (bound.get? x).or (d.consts.get? x)
  | int _ => some .int
  | lit _ => some .bool
  | app fn ts =>
    (sorts? d bound ts).bind fun ss => (operatorSort? fn ss).or (functionSort? d bound fn ss)
  | quant _ x s t => if t.sort? d (bound.insert x s) = some .bool then some .bool else none
  | constArray s t => if t.sort? d bound = some s then some (.array s) else none
  | absent => none

def sorts? (d : Declarations) (bound : NameMap SmtSort) : List Term → Option (List SmtSort)
  | [] => some []
  | t :: ts => (t.sort? d bound).bind fun s => (sorts? d bound ts).map (s :: ·)

end

end Term

/-- Whether a second set of declarations has all of a first one. -/
structure Declarations.Under (d d' : Declarations) : Prop where
  consts : ∀ n s, d.consts.get? n = some s → d'.consts.get? n = some s
  funs : ∀ n sig, d.funs.get? n = some sig → d'.funs.get? n = some sig

theorem Declarations.Under.refl (d : Declarations) : d.Under d := ⟨fun _ _ => id, fun _ _ => id⟩

theorem Declarations.Under.trans {d d' d'' : Declarations} (h : d.Under d') (h' : d'.Under d'') :
    d.Under d'' :=
  ⟨fun n s hn => h'.consts n s (h.consts n s hn), fun n sig hn => h'.funs n sig (h.funs n sig hn)⟩

variable {sig : FunctionSort} {ks : List Kind}

namespace Term

variable {d d' : Declarations} {bound : NameMap SmtSort}
variable {ss : List SmtSort} {ts : List Term}

theorem functionSort?_mono (h : d.Under d') {fn : String} {s : SmtSort}
    (hs : functionSort? d bound fn ss = some s) : functionSort? d' bound fn ss = some s := by
  unfold functionSort? at hs ⊢
  split_ifs at hs ⊢
  obtain ⟨sig, hsig, hs⟩ := Option.bind_eq_some_iff.mp hs
  exact Option.bind_eq_some_iff.mpr ⟨sig, h.funs fn sig hsig, hs⟩

mutual

/-- More declarations do no harm. -/
theorem sort?_mono (h : d.Under d') : ∀ (t : Term) {bound : NameMap SmtSort} {s : SmtSort},
    t.sort? d bound = some s → t.sort? d' bound = some s
  | const x, bound, s, hs => by
    simp only [sort?, Option.or_eq_some_iff] at hs ⊢
    exact hs.imp_right fun hs => ⟨hs.1, h.consts x s hs.2⟩
  | int _, bound, s, hs | lit _, bound, s, hs => hs
  | app fn ts, bound, s, hs => by
    obtain ⟨ss, hss, hs⟩ := Option.bind_eq_some_iff.mp hs
    refine Option.bind_eq_some_iff.mpr ⟨ss, sorts?_mono h ts hss, ?_⟩
    rw [Option.or_eq_some_iff] at hs ⊢
    exact hs.imp_right fun hs => ⟨hs.1, functionSort?_mono h hs.2⟩
  | quant q x s' t, bound, s, hs | constArray s' t, bound, s, hs => by
    simp only [sort?] at hs ⊢
    split_ifs at hs with ht
    rwa [if_pos (sort?_mono h t ht)]
  | absent, bound, s, hs => hs

theorem sorts?_mono (h : d.Under d') : ∀ (ts : List Term) {bound : NameMap SmtSort}
    {ss : List SmtSort}, sorts? d bound ts = some ss → sorts? d' bound ts = some ss
  | [], bound, ss, hss => hss
  | t :: ts, bound, ss, hss => by
    simp only [sorts?] at hss ⊢
    obtain ⟨s, hs, hss⟩ := Option.bind_eq_some_iff.mp hss
    obtain ⟨ss', hss', rfl⟩ := Option.map_eq_some_iff.mp hss
    rw [sort?_mono h t hs, sorts?_mono h ts hss']
    rfl

end

mutual

/-- A well-sorted term has no absent part. -/
theorem exists_toSExp (t : Term) {bound s} (hs : t.sort? d bound = some s) :
    ∃ e, t.toSExp = some e :=
  match t, hs with
  | const x, hs => ⟨_, rfl⟩
  | int n, hs => ⟨_, rfl⟩
  | lit true, hs => ⟨_, rfl⟩
  | lit false, hs => ⟨_, rfl⟩
  | app fn [], hs => ⟨_, rfl⟩
  | app fn (t :: ts), hs => by
    obtain ⟨ss, hss, -⟩ := Option.bind_eq_some_iff.mp hs
    obtain ⟨s', hs', hss⟩ := Option.bind_eq_some_iff.mp hss
    obtain ⟨ss', hss', -⟩ := Option.map_eq_some_iff.mp hss
    obtain ⟨e, he⟩ := exists_toSExp t hs'
    obtain ⟨es, hes⟩ := exists_toSExps ts hss'
    exact ⟨_, by simp only [toSExp, he, hes]; rfl⟩
  | quant q x s' t, hs | constArray s' t, hs => by
    simp only [sort?] at hs
    split_ifs at hs with ht
    obtain ⟨e, he⟩ := exists_toSExp t ht
    exact ⟨_, by simp only [toSExp, he]; rfl⟩
  | absent, hs => by cases hs

theorem exists_toSExps (ts : List Term) {bound ss} (hss : sorts? d bound ts = some ss) :
    ∃ es, toSExps ts = some es :=
  match ts, hss with
  | [], hss => ⟨[], rfl⟩
  | t :: ts, hss => by
    obtain ⟨s, hs, hss⟩ := Option.bind_eq_some_iff.mp hss
    obtain ⟨ss', hss', -⟩ := Option.map_eq_some_iff.mp hss
    obtain ⟨e, he⟩ := exists_toSExp t hs
    obtain ⟨es, hes⟩ := exists_toSExps ts hss'
    exact ⟨e :: es, by simp only [toSExps, he, hes]; rfl⟩

end

/-! ### Constructed terms -/

/-- Whether an operator of the solver gives a term of its sort if it is applied to terms of the sorts that
it takes. Which terms are of a sort is a parameter. -/
structure Composes (IsOf : Term → SmtSort → Prop) : Prop where
  int : ∀ n, IsOf (int n) .int
  lit : ∀ b, IsOf (lit b) .bool
  app : ∀ {fn ts ss s}, List.Forall₂ IsOf ts ss → operatorSort? fn ss = some s → IsOf (app fn ts) s
  constArray : ∀ {t s}, IsOf t s → IsOf (constArray s t) (.array s)

namespace Composes

variable {IsOf : Term → SmtSort → Prop} (h : Composes IsOf) {fn : String} {a b c t i : Term}
  {s s' s'' r : SmtSort}
include h

theorem pair (ha : IsOf a s) (hb : IsOf b s') (hr : operatorSort? fn [s, s'] = some r) :
    IsOf (.app fn [a, b]) r := h.app (.cons ha (.cons hb .nil)) hr

theorem triple (ha : IsOf a s) (hb : IsOf b s') (hc : IsOf c s'')
    (hr : operatorSort? fn [s, s', s''] = some r) : IsOf (.app fn [a, b, c]) r :=
  h.app (.cons ha (.cons hb (.cons hc .nil))) hr

theorem select (ha : IsOf a (.array s)) (hi : IsOf i .int) : IsOf (.select a i) s := h.pair ha hi rfl

theorem store (ha : IsOf a (.array s)) (hi : IsOf i .int) (ht : IsOf t s) :
    IsOf (.store a i t) (.array s) := h.triple ha hi ht (if_pos rfl)

theorem ite (hc : IsOf c .bool) (ha : IsOf a s) (hb : IsOf b s) : IsOf (.ite c a b) s :=
  h.triple hc ha hb (if_pos rfl)

theorem eq (ha : IsOf a s) (hb : IsOf b s) : IsOf (.eq a b) .bool := h.pair ha hb (if_pos rfl)

theorem arithmetic (o : Operator) (ha : IsOf a .int) (hb : IsOf b .int) :
    IsOf (.app (operatorName o) [a, b]) .int := by
  cases o <;> exact h.pair ha hb rfl

theorem not (ht : IsOf t .bool) : IsOf t.not .bool := by
  unfold Term.not
  split
  · exact h.lit _
  · exact h.app (.cons ht .nil) rfl

theorem implies (ha : IsOf a .bool) (hb : IsOf b .bool) : IsOf (.implies a b) .bool := by
  unfold Term.implies
  split_ifs
  · exact hb
  · exact h.pair ha hb rfl

theorem join {neutral : Bool}
    (hfn : ∀ ss, operatorSort? fn ss = if ss.all (· = .bool) then some .bool else none)
    (ha : IsOf a .bool) (hb : IsOf b .bool) : IsOf (.join fn neutral [a, b]) .bool :=
  Term.join_pair (P := fun t => IsOf t .bool) (h.pair ha hb (hfn _)) (fun _ => ha) fun _ => hb

/-- Where two terms have an order, it is a truth value. -/
theorem order {o : Comparison} (ht : orderTerm o s a b = some t) (ha : IsOf a s) (hb : IsOf b s) :
    IsOf t .bool := by
  cases s with
  | int =>
    cases ht
    cases o <;> exact h.pair ha hb rfl
  | bool =>
    cases o <;> cases ht
    · exact h.implies hb ha
    · exact h.implies ha hb
    · exact h.join (fun _ => rfl) ha (h.not hb)
    · exact h.join (fun _ => rfl) (h.not ha) hb
  | array s => cases ht

end Composes

theorem sorts?_of_forall₂ (h : List.Forall₂ (fun t s => t.sort? d bound = some s) ts ss) :
    sorts? d bound ts = some ss := by
  induction h with
  | nil => rfl
  | cons ht _ ih => simp only [sorts?, ht, ih, Option.bind_some, Option.map_some]

theorem composes_sort? : Composes fun t s => t.sort? d bound = some s := by
  refine ⟨fun _ => rfl, fun _ => rfl, fun hts hs => ?_, fun ht => if_pos ht⟩
  simp only [sort?, sorts?_of_forall₂ hts, Option.bind_some, hs, Option.some_or]

/-- No operator has a quote in its name. -/
theorem operatorSort?_of_quote {fn : String} (h : '\'' ∈ fn.toList) (ss : List SmtSort) :
    operatorSort? fn ss = none := by
  unfold operatorSort?
  split <;> first | rfl | exact absurd h (by decide)

theorem sort?_function {fn : String} (hfn : '\'' ∈ fn.toList) (hbound : bound.get? fn = none)
    (hsig : d.funs.get? fn = some sig) (hts : sorts? d bound ts = some sig.args) :
    (app fn ts).sort? d bound = some sig.result := by
  have hcontains : bound.contains fn = false := by simp [NameMap.contains, hbound]
  simp only [sort?, hts, Option.bind_some, operatorSort?_of_quote hfn, Option.none_or, functionSort?,
    hcontains, hsig]
  simp

theorem sorts?_append {us : List Term} {rs : List SmtSort} (hts : sorts? d bound ts = some ss)
    (hus : sorts? d bound us = some rs) : sorts? d bound (ts ++ us) = some (ss ++ rs) := by
  induction ts generalizing ss with
  | nil =>
    cases hts
    exact hus
  | cons t ts ih =>
    obtain ⟨s, hs, hts⟩ := Option.bind_eq_some_iff.mp hts
    obtain ⟨ss', hss', rfl⟩ := Option.map_eq_some_iff.mp hts
    simp only [List.cons_append, sorts?, hs, ih hss', Option.bind_some, Option.map_some]

end Term

/-! ### Declarations that agree with a scope -/

/-- Whether all variables of a scope have plain names. -/
def Scope.Plain (Γ : Scope) : Prop := ∀ x t, Γ.type? x = some t → IsPlain x

theorem Scope.Plain.clean {Γ : Scope} (h : Γ.Plain) : Γ.Clean := by
  intro n hn
  refine Option.eq_none_iff_forall_ne_some.mpr fun t ht => ?_
  cases hn with
  | part => exact (h _ t ht).1 _ _ rfl
  | function => exact (h _ t ht).2 _ rfl
  | result => exact (h _ t ht).1 _ _ rfl

/-- The sorts of the arrays that a tuple becomes, each once, in the order of their tags. -/
def Kind.partSorts (ss : List SmtSort) : List SmtSort :=
  (NameMap.ofList (ss.map fun s => (s.tag, s))).entries.map Prod.snd

/-- The sorts of the arguments of the solver for an argument of a kind. -/
def Kind.argumentSorts : Kind → List SmtSort
  | .unit => []
  | .scalar s => [s]
  | .tuple ss => (partSorts ss).map .array

theorem Encoding.tupleSorts_eq {ts : List Ty} {ss : List SmtSort} (h : Ty.HaveSorts ts ss) :
    tupleSorts ts = Kind.partSorts ss := by
  have hsorts : ts.filterMap (fun t => t.sortOf.toOption) = ss := by
    induction h with
    | nil => rfl
    | cons hs _ ih => rw [List.filterMap_cons, hs, ih, Except.toOption]
  rw [tupleSorts, hsorts]
  rfl

/-- The sorts of the arguments of the solver for an argument of a type. Elements of a tuple that have no
sort are left out. -/
def Ty.argumentSorts (t : Ty) : List SmtSort :=
  match t.underlying with
  | .tuple ts => (tupleSorts ts).map .array
  | _ => t.sortOf.toOption.toList

/-- The sorts of the arguments of the solver function for a function. -/
def Function.argumentSorts (g : Function) : List SmtSort := g.inputs.flatMap fun d => d.type.argumentSorts

theorem Ty.IsKind.argumentSorts {t : Ty} {k : Kind} (h : t.IsKind k) :
    t.argumentSorts = k.argumentSorts := by
  unfold Ty.argumentSorts
  cases k with
  | unit =>
    have hunit : t.underlying = .unit := h
    rw [hunit]
    cases hs : t.sortOf with
    | error e => rfl
    | ok s => exact absurd hs (Ty.sortOf_of_underlying_unit hunit s)
  | scalar s =>
    have hs : t.sortOf = .ok s := h
    split
    · next ts hts => exact absurd hs (Ty.sortOf_of_underlying_tuple hts s)
    · rw [hs]
      rfl
  | tuple ss =>
    obtain ⟨ts, hts, hss⟩ := h
    rw [hts]
    exact congrArg (List.map SmtSort.array) (tupleSorts_eq hss)

theorem Function.Takes.argumentSorts {g : Function} {k : Kind} (h : g.Takes ks k) :
    ks.flatMap Kind.argumentSorts = g.argumentSorts := by
  have hall : ∀ {ds : List Declaration} {ks : List Kind},
      List.Forall₂ Ty.IsKind (ds.map Declaration.type) ks →
        ks.flatMap Kind.argumentSorts = ds.flatMap fun d => d.type.argumentSorts := by
    intro ds
    induction ds with
    | nil =>
      intro ks h
      cases h
      rfl
    | cons d ds ih =>
      intro ks h
      obtain _ | ⟨hk, hrest⟩ := h
      rw [List.flatMap_cons, List.flatMap_cons, ih hrest, hk.argumentSorts]
  exact hall h.inputs

/-- Whether a function of the solver with a signature is that of a function of a scope, or holds a part
of its result. -/
inductive Scope.Signature (Γ : Scope) : String → FunctionSort → Prop
  | self {f : String} {g : Function} {s : SmtSort} : Γ.function? f = some g →
    g.output.sortOf = .ok s → Signature Γ (functionName f) ⟨g.argumentSorts, s⟩
  | part {f : String} {g : Function} (s : SmtSort) : Γ.function? f = some g →
    Signature Γ (partName (functionName f) s) ⟨g.argumentSorts, .array s⟩

variable {n : String}

theorem Scope.Signature.unique {Γ : Scope} {sig' : FunctionSort} (h : Γ.Signature n sig)
    (h' : Γ.Signature n sig') : sig = sig' := by
  cases h with
  | self hg hs =>
    generalize hn : functionName _ = n at h'
    cases h' with
    | self hg' hs' =>
      obtain rfl := functionName_inj.mp hn
      obtain rfl := Option.mem_unique hg hg'
      rw [ok_unique hs hs']
    | part => exact absurd hn (functionName_ne_partName _ _ _)
  | part s hg =>
    generalize hn : partName _ s = n at h'
    cases h' with
    | self => exact absurd hn.symm (functionName_ne_partName _ _ _)
    | part s' hg' =>
      obtain ⟨hf, rfl⟩ := partName_inj.mp hn
      obtain rfl := functionName_inj.mp hf
      obtain rfl := Option.mem_unique hg hg'
      rfl

theorem Scope.Signature.not_plain {Γ : Scope} (h : Γ.Signature n sig) :
    ¬ IsPlain n ∧ '\'' ∈ n.toList := by
  cases h with
  | self => exact ⟨fun h => h.2 _ rfl, prime_mem_functionName _⟩
  | part s => exact ⟨fun h => h.1 _ s rfl, prime_mem_partName _ s⟩

/-- Whether declarations say what a scope says. -/
structure Declarations.Agrees (d : Declarations) (Γ : Scope) : Prop where
  sorted : d.consts.Sorted ∧ d.funs.Sorted
  consts : ∀ n s, d.consts.get? n = some s → ∃ x, Γ.Symbol x n s
  funs : ∀ n sig, d.funs.get? n = some sig → Γ.Signature n sig

theorem Declarations.agrees_default (Γ : Scope) : (default : Declarations).Agrees Γ :=
  ⟨⟨.nil, .nil⟩, fun n s hn => (by cases hn), fun n sig hn => (by cases hn)⟩

namespace Encoding

/-! ### Encodings that succeed -/

variable {α β : Type} {Γ Δ : Scope} {d d' : Declarations} {Q P : α → Declarations → Prop} {a : α}

/-- Whether an encoding has a result with a property, and declares what a scope says. -/
def Succeeds (Γ : Scope) (d : Declarations) (m : EncodeM α) (Q : α → Declarations → Prop) : Prop :=
  d.Agrees Γ → ∃ a d', m.run.run d = (.ok a, d') ∧ d.Under d' ∧ d'.Agrees Γ ∧ Q a d'

theorem succeeds_pure (h : Q a d) : Succeeds Γ d (pure a) Q := fun hd => ⟨a, d, rfl, .refl d, hd, h⟩

theorem Succeeds.bind {m : EncodeM α} {f : α → EncodeM β} {Q : β → Declarations → Prop}
    (h : Succeeds Γ d m P) (hf : ∀ a d', d.Under d' → P a d' → Succeeds Γ d' (f a) Q) :
    Succeeds Γ d (m >>= f) Q := by
  intro hd
  obtain ⟨a, d₁, hrun, hunder, hagrees, hP⟩ := h hd
  obtain ⟨b, d₂, hrun', hunder', hagrees', hQ⟩ := hf a d₁ hunder hP hagrees
  refine ⟨b, d₂, ?_, hunder.trans hunder', hagrees', hQ⟩
  rw [run_bind, hrun]
  exact hrun'

theorem Succeeds.mono {m : EncodeM α} (h : Succeeds Γ d m P)
    (hPQ : ∀ a d', d.Under d' → P a d' → Q a d') : Succeeds Γ d m Q := by
  intro hd
  obtain ⟨a, d', hrun, hunder, hagrees, hP⟩ := h hd
  exact ⟨a, d', hrun, hunder, hagrees, hPQ a d' hunder hP⟩

theorem after_lift {r : Except Fault α} {f : α → EncodeM β} {Q : β → Declarations → Prop} (hr : r = .ok a)
    (h : Succeeds Γ d (f a) Q) : Succeeds Γ d (lift r >>= f) Q := by
  subst hr
  simpa only [lift, pure_bind] using h

theorem after_orFail {r : Except Cause α} {f : α → EncodeM β} {Q : β → Declarations → Prop} (hr : r = .ok a)
    (h : Succeeds Γ d (f a) Q) : Succeeds Γ d (orFail r >>= f) Q := by
  subst hr
  simpa only [orFail, pure_bind] using h

/-- How an environment sees the variables that a node is well-sorted with: those of a scope, and bound
ones, whose sorts are given. -/
structure Env.Sees (env : Env) (Γ Δ : Scope) (binders : NameMap SmtSort) : Prop where
  types : ∀ x t, Δ.type? x = some t → env.scope.type? x = some t
  functions : ∀ f, env.scope.function? f = Γ.function? f
  same : ∀ f, Δ.function? f = Γ.function? f
  plain : Δ.Plain
  bound : ∀ x ∈ env.bound, ∃ t s, Δ.type? x = some t ∧ t.sortOf = .ok s ∧ binders.get? x = some s
  free : ∀ x ∉ env.bound, Δ.type? x = Γ.type? x ∧ binders.get? x = none

namespace Env.Sees

variable {env : Env} {binders : NameMap SmtSort}

theorem bind (h : env.Sees Γ Δ binders) {x : String} {t : Ty} {s : SmtSort} (hx : IsPlain x)
    (hs : t.sortOf = .ok s) : (env.bind x t).Sees Γ (Δ.declare x t) (binders.insert x s) := by
  refine ⟨fun y u hy => ?_, h.functions, h.same, fun y u hy => ?_, fun y hy => ?_, fun y hy => ?_⟩
  · simp only [Env.bind, Scope.type?_declare] at hy ⊢
    split_ifs at hy ⊢
    · exact hy
    · exact h.types y u hy
  · rw [Scope.type?_declare] at hy
    split_ifs at hy with hxy
    · exact hxy ▸ hx
    · exact h.plain y u hy
  · rw [Scope.type?_declare, NameMap.get?_insert]
    by_cases hxy : x = y
    · exact ⟨t, s, if_pos hxy, hs, if_pos hxy⟩
    · simp only [if_neg hxy]
      exact h.bound y ((List.mem_cons.mp hy).resolve_left (Ne.symm hxy))
  · simp only [Env.bind, List.mem_cons, not_or] at hy
    rw [Scope.type?_declare, NameMap.get?_insert, if_neg (Ne.symm hy.1), if_neg (Ne.symm hy.1)]
    exact h.free y hy.2

theorem agreesOn (h : env.Sees Γ Δ binders) (xs : Names) : Δ.AgreesOn env.scope xs :=
  ⟨fun x _ _ hk => hk.imp fun t ht => ⟨h.types x t ht.1, ht.2⟩,
    fun f _ hg => (h.functions f).trans ((h.same f).symm.trans hg)⟩

/-- A name that the solver needs is not bound. -/
theorem get?_of_not_plain (h : env.Sees Γ Δ binders) (hn : ¬ IsPlain n) :
    n ∉ env.bound ∧ binders.get? n = none := by
  have hfree : n ∉ env.bound := by
    intro hmem
    obtain ⟨t, -, ht, -⟩ := h.bound n hmem
    exact hn (h.plain n t ht)
  exact ⟨hfree, (h.free n hfree).2⟩

end Env.Sees

section

variable {env : Env} {binders : NameMap SmtSort} (hΓ : Γ.Plain) (he : env.Sees Γ Δ binders)
include hΓ he

/-! ### Constants and functions -/

variable {n : String} {s : SmtSort}

omit he in
/-- What is declared for a variable of the scope is what has been declared for it before. -/
theorem succeeds_declare (hfree : n ∉ env.bound → ∃ x, Γ.Symbol x n s) :
    Succeeds Γ d (declareConst env n s) fun _ d' => n ∉ env.bound → d'.consts.get? n = some s := by
  intro hd
  by_cases hn : n ∈ env.bound
  · refine ⟨(), d, ?_, .refl d, hd, fun h => absurd hn h⟩
    rw [declareConst, if_pos (by simpa using hn)]
    rfl
  · obtain ⟨x, hx⟩ := hfree hn
    refine ⟨(), { d with consts := d.consts.insert n s }, ?_, ⟨fun m s' hm => ?_, fun _ _ => id⟩,
      ⟨⟨hd.sorted.1.insert n s, hd.sorted.2⟩, fun m s' hm => ?_, hd.funs⟩, fun _ => ?_⟩
    · rw [declareConst, if_neg (by simpa using hn)]
      rfl
    · rw [NameMap.get?_insert]
      split_ifs with hnm
      · subst hnm
        obtain ⟨y, hy⟩ := hd.consts n s' hm
        rw [hx.sort_eq hΓ.clean hy]
      · exact hm
    · rw [NameMap.get?_insert] at hm
      split_ifs at hm with hnm
      · obtain rfl := Option.some.inj hm
        exact ⟨x, hnm ▸ hx⟩
      · exact hd.consts m s' hm
    · rw [NameMap.get?_insert, if_pos rfl]

/-- A bound variable needs no declaration. -/
theorem succeeds_declareConst (hbound : n ∈ env.bound → binders.get? n = some s)
    (hfree : n ∉ env.bound → ∃ x, Γ.Symbol x n s) :
    Succeeds Γ d (declareConst env n s) fun _ d' => (Term.const n).sort? d' binders = some s := by
  refine (succeeds_declare hΓ hfree).mono fun _ d' _ hdeclared => ?_
  by_cases hn : n ∈ env.bound
  · simp only [Term.sort?, hbound hn, Option.some_or]
  · simp only [Term.sort?, (he.free n hn).2, Option.none_or, hdeclared hn]

theorem succeeds_variable {x : String} (hx : Δ.Gives x (.scalar s)) :
    Succeeds Γ d (declareConst env x s) fun _ d' => (Term.const x).sort? d' binders = some s := by
  obtain ⟨t, ht, hs⟩ := hx
  refine succeeds_declareConst hΓ he (fun hbound => ?_) fun hfree => ⟨x, .self ?_ hs⟩
  · obtain ⟨t', s', ht', hs', hget⟩ := he.bound x hbound
    obtain rfl := Option.mem_unique ht ht'
    rw [hget, ok_unique hs' hs]
  · rw [← (he.free x hfree).1, ht]

omit hΓ he in
/-- A function of the scope is declared with the sorts of its arguments. -/
theorem succeeds_define (hn : Γ.Signature n sig) :
    Succeeds Γ d (declareFun n sig) fun _ d' => d'.funs.get? n = some sig := by
  intro hd
  refine ⟨(), { d with funs := d.funs.insert n sig }, rfl, ⟨fun _ _ => id, fun m sig' hm => ?_⟩,
    ⟨⟨hd.sorted.1, hd.sorted.2.insert n sig⟩, hd.consts, fun m sig' hm => ?_⟩, ?_⟩
  · rw [NameMap.get?_insert]
    split_ifs with hnm
    · rw [hn.unique (hd.funs n sig' (hnm ▸ hm))]
    · exact hm
  · rw [NameMap.get?_insert] at hm
    split_ifs at hm with hnm
    · obtain rfl := Option.some.inj hm
      exact hnm ▸ hn
    · exact hd.funs m sig' hm
  · exact (NameMap.get?_insert _ _ _ _).trans (if_pos rfl)

omit hΓ in
theorem succeeds_declareFun {ts : List Term} (hn : Γ.Signature n sig)
    (hts : Term.sorts? d binders ts = some sig.args) :
    Succeeds Γ d (declareFun n sig) fun _ d' =>
      (Term.app n ts).sort? d' binders = some sig.result := by
  refine (succeeds_define hn).mono fun _ d' hd hdeclared => ?_
  exact Term.sort?_function hn.not_plain.2 (he.get?_of_not_plain hn.not_plain.1).2 hdeclared
    (Term.sorts?_mono hd ts hts)

end

/-! ### Parts of tuples -/

variable {binders : NameMap SmtSort}

/-- Whether the parts of a tuple are arrays of the sorts of its elements. Which terms are of a sort is a
parameter. -/
structure PartsSorted (IsOf : Term → SmtSort → Prop) (parts : NameMap Term) (ss : List SmtSort) :
    Prop where
  present : ∀ s ∈ ss, ∃ t, parts.get? s.tag = some t
  sorts : ∀ tag t, parts.get? tag = some t → ∃ s ∈ ss, tag = s.tag ∧ IsOf t (.array s)

namespace PartsSorted

variable {IsOf IsOf' : Term → SmtSort → Prop} {parts parts' : NameMap Term} {ss : List SmtSort}

theorem empty : PartsSorted IsOf .empty [] :=
  ⟨fun s hs => absurd hs List.not_mem_nil, fun tag t ht => by simp at ht⟩

theorem mono (h : PartsSorted IsOf parts ss) (himp : ∀ t s, IsOf t s → IsOf' t s) :
    PartsSorted IsOf' parts ss := by
  refine ⟨h.present, fun tag t ht => ?_⟩
  obtain ⟨s, hs, htag, hsort⟩ := h.sorts tag t ht
  exact ⟨s, hs, htag, himp t _ hsort⟩

variable {s : SmtSort}

theorem insert (h : PartsSorted IsOf parts ss) {t : Term} (ht : IsOf t (.array s)) :
    PartsSorted IsOf (parts.insert s.tag t) (ss ++ [s]) := by
  refine ⟨fun s' hs' => ?_, fun tag t' ht' => ?_⟩
  · rw [NameMap.get?_insert]
    split_ifs with htag
    · exact ⟨t, rfl⟩
    · refine h.present s' ((List.mem_append.mp hs').resolve_right fun hs' => htag ?_)
      rw [List.mem_singleton.mp hs']
  · rw [NameMap.get?_insert] at ht'
    split_ifs at ht' with htag
    · obtain rfl := Option.some.inj ht'
      exact ⟨s, by simp, htag.symm, ht⟩
    · obtain ⟨s', hs', htag', hsort⟩ := h.sorts tag t' ht'
      exact ⟨s', List.mem_append_left _ hs', htag', hsort⟩

theorem part (h : PartsSorted IsOf parts ss) (hs : s ∈ ss) : IsOf (Encoding.part parts s) (.array s) := by
  obtain ⟨t, ht⟩ := h.present s hs
  obtain ⟨s', -, htag, hsort⟩ := h.sorts s.tag t ht
  rw [Encoding.part, ht, Option.getD_some, tag_injective htag]
  exact hsort

/-- Only which sorts there are matters. -/
theorem congr {ss' : List SmtSort} (h : PartsSorted IsOf parts ss) (hss : ∀ s, s ∈ ss ↔ s ∈ ss') :
    PartsSorted IsOf parts ss' := by
  refine ⟨fun s hs => h.present s ((hss s).mpr hs), fun tag t ht => ?_⟩
  obtain ⟨s, hs, hrest⟩ := h.sorts tag t ht
  exact ⟨s, (hss s).mp hs, hrest⟩

/-- The sorts of a tuple are those of its first element and of the others. -/
theorem tupleSorts_cons {done : List SmtSort} {t : Ty} {ts : List Ty}
    (h : PartsSorted IsOf parts ((done ++ [s]) ++ tupleSorts ts)) (hs : t.sortOf = .ok s) :
    PartsSorted IsOf parts (done ++ tupleSorts (t :: ts)) := by
  refine h.congr fun s' => ?_
  simp only [List.mem_append, List.mem_singleton, mem_tupleSorts, List.exists_mem_cons_iff, hs,
    Except.ok.injEq, eq_comm, or_assoc]

/-- One more element of a literal is stored in its part, or starts one. -/
theorem literalPart (h : PartsSorted IsOf parts ss) (hIs : Term.Composes IsOf) {r : Encoded} {i : ℕ}
    (hr : IsOf r.term r.sort) : PartsSorted IsOf (literalPart parts i r) (ss ++ [r.sort]) := by
  refine h.insert ?_
  split
  · next p hp =>
    obtain ⟨s, -, htag, hsort⟩ := h.sorts r.sort.tag p hp
    exact hIs.store (tag_injective htag ▸ hsort) (hIs.int _) hr
  · exact hIs.constArray hr

/-- A choice between two tuples is one between their parts. -/
theorem choice (h : PartsSorted IsOf parts ss) (hIs : Term.Composes IsOf) {c : Term}
    (hc : IsOf c .bool) (h' : ∀ s ∈ ss, IsOf (Encoding.part parts' s) (.array s)) :
    PartsSorted IsOf (parts.map fun tag p => .ite c p ((parts'.get? tag).getD .absent)) ss := by
  refine ⟨fun s hs => ?_, fun tag t ht => ?_⟩
  · obtain ⟨t, ht⟩ := h.present s hs
    exact ⟨_, by rw [NameMap.get?_map, ht]; rfl⟩
  · rw [NameMap.get?_map] at ht
    obtain ⟨p, hp, rfl⟩ := Option.map_eq_some_iff.mp ht
    obtain ⟨s, hs, rfl, hsort⟩ := h.sorts tag p hp
    exact ⟨s, hs, rfl, hIs.ite hc hsort (h' s hs)⟩

end PartsSorted

/-- Whether a term is of a sort under some declarations and below some binders. -/
def IsOfSort (binders : NameMap SmtSort) (d : Declarations) (t : Term) (s : SmtSort) : Prop :=
  t.sort? d binders = some s

theorem PartsSorted.grow {parts : NameMap Term} {ss : List SmtSort}
    (h : PartsSorted (IsOfSort binders d) parts ss) (hd : d.Under d') :
    PartsSorted (IsOfSort binders d') parts ss := h.mono fun t _ ht => t.sort?_mono hd ht

theorem PartsSorted.sorts_parts {parts : NameMap Term} {ss : List SmtSort}
    (h : PartsSorted (IsOfSort binders d) parts ss) :
    ∀ {rs : List SmtSort}, (∀ s ∈ rs, s ∈ ss) →
      Term.sorts? d binders (rs.map (Encoding.part parts)) = some (rs.map .array)
  | [], _ => rfl
  | s :: rs, hrs => by
    have hpart : (Encoding.part parts s).sort? d binders = some (.array s) :=
      h.part (hrs s List.mem_cons_self)
    simp only [List.map_cons, Term.sorts?, hpart,
      h.sorts_parts fun s' hs' => hrs s' (List.mem_cons_of_mem s hs'), Option.bind_some,
      Option.map_some]

/-! ### What is encoded -/

/-- Whether side conditions are well-sorted. -/
def ChecksSorted (Δ : Scope) (cs : List Check) : Prop := ∀ c ∈ cs, c.cond.IsSorted Δ

theorem checksSorted_nil : ChecksSorted Δ [] := fun _ hc => absurd hc List.not_mem_nil

variable {s : SmtSort} {cs : List Check} {r : Encoded} {x : String}

theorem ChecksSorted.append {cs' : List Check} (h : ChecksSorted Δ cs) (h' : ChecksSorted Δ cs') :
    ChecksSorted Δ (cs ++ cs') := fun c hc => (List.mem_append.mp hc).elim (h c) (h' c)

theorem isSorted_implies {f g : Formula} (hf : f.IsSorted Δ) (hg : g.IsSorted Δ) :
    (f.implies g).IsSorted Δ :=
  Formula.implies_of (P := fun f => f.IsSorted Δ) trivial (fun _ _ hf hg => ⟨hf, hg⟩) hf.negate hg

theorem ChecksSorted.guard (h : ChecksSorted Δ cs) {f : Formula} (hf : f.IsSorted Δ) (t : Term) :
    ChecksSorted Δ (cs.map (Check.guard f t)) := by
  intro c hc
  obtain ⟨c', hc', rfl⟩ := List.mem_map.mp hc
  exact isSorted_implies hf (h c' hc')

/-- Whether a value has been encoded as a term of a sort, with well-sorted side conditions. -/
structure Encoded.Fits (Δ : Scope) (binders : NameMap SmtSort) (s : SmtSort) (r : Encoded)
    (d : Declarations) : Prop where
  sort : r.sort = s
  term : r.term.sort? d binders = some s
  checks : ChecksSorted Δ r.checks

theorem Encoded.Fits.grow (h : r.Fits Δ binders s d) (hd : d.Under d') :
    r.Fits Δ binders s d' := ⟨h.sort, r.term.sort?_mono hd h.term, h.checks⟩

/-- Whether a tuple has been encoded, with elements of some sorts. -/
structure EncodedTuple.Fits (Δ : Scope) (binders : NameMap SmtSort) (ss : List SmtSort)
    (r : EncodedTuple) (d : Declarations) : Prop where
  elements : Ty.HaveSorts r.elements ss
  parts : PartsSorted (IsOfSort binders d) r.parts ss
  checks : ChecksSorted Δ r.checks

theorem EncodedTuple.Fits.grow {ss : List SmtSort} {r : EncodedTuple} (h : r.Fits Δ binders ss d)
    (hd : d.Under d') : r.Fits Δ binders ss d' := ⟨h.elements, h.parts.grow hd, h.checks⟩

/-- Whether arguments of some kinds have been encoded. -/
structure EncodedArgs.Fits (Δ : Scope) (binders : NameMap SmtSort) (ks : List Kind)
    (r : EncodedArgs) (d : Declarations) : Prop where
  sorts : r.sorts = ks.flatMap Kind.argumentSorts
  terms : Term.sorts? d binders r.terms = some r.sorts
  checks : ChecksSorted Δ r.checks

theorem EncodedArgs.Fits.grow {r : EncodedArgs} (h : r.Fits Δ binders ks d) (hd : d.Under d') :
    r.Fits Δ binders ks d' :=
  ⟨h.sorts, Term.sorts?_mono hd r.terms h.terms, h.checks⟩

theorem branchChecks_sorted {c : Formula} {cs' : List Check} (hc : c.IsSorted Δ)
    (hr : ChecksSorted Δ r.checks) (hcs : ChecksSorted Δ cs) (hcs' : ChecksSorted Δ cs') :
    ChecksSorted Δ (branchChecks c r cs cs') :=
  (hr.append (hcs.guard hc _)).append (hcs'.guard hc.negate _)

theorem succeeds_requireSort {v : Value} (h : r.Fits Δ binders s d) :
    Succeeds Γ d (requireSort v s r) (Encoded.Fits Δ binders s) := by
  rw [requireSort, if_pos h.sort]
  exact succeeds_pure h

theorem succeeds_requireInt {a : Expr} (h : r.Fits Δ binders .int d) :
    Succeeds Γ d (requireInt a r) (Encoded.Fits Δ binders .int) := by
  cases a with
  | value v => exact succeeds_requireSort h
  | num n | op o a b => exact succeeds_pure h

/-- An element is read at an index that is an integer. -/
theorem succeeds_arrayElement {array : Term} {e : Ty} {n : ℕ} {i : Value} {index : Encoded}
    (harray : array.sort? d binders = some (.array s)) (he : e.sortOf = .ok s)
    (hi : i.HasKind Δ (.scalar .int)) (hindex : index.Fits Δ binders .int d) :
    Succeeds Γ d (arrayElement array e n i index) (Encoded.Fits Δ binders s) := by
  have hbounds : ChecksSorted Δ [Check.index i index.term n] := by
    intro c hc
    obtain rfl := List.mem_singleton.mp hc
    have hcompare : ∀ c a b, Expr.HasSort Δ a .int → Expr.HasSort Δ b .int →
        (Formula.compare c a b).IsSorted Δ := fun c a b ha hb => ⟨.int, .inl rfl, ha, hb⟩
    simp only [Check.index]
    refine Formula.conj_of (P := fun f => f.IsSorted Δ) trivial (fun _ _ hf hg => ⟨hf, hg⟩) ?_
    intro f hf
    rcases List.mem_cons.mp hf with rfl | hf
    · exact hcompare _ _ _ rfl hi.toExpr
    · obtain rfl := List.mem_singleton.mp hf
      exact hcompare _ _ _ hi.toExpr rfl
  unfold arrayElement
  rw [he]
  refine succeeds_pure ⟨rfl, Term.composes_sort?.select harray hindex.term, ?_⟩
  split_ifs
  · exact hindex.checks
  · exact hindex.checks.append hbounds

theorem succeeds_tupleElement {o : Origin} {r : EncodedTuple} {i : Value} {ss : List SmtSort} {n : ℕ}
    (hr : r.Fits Δ binders ss d) (hn : i.constantIndex? = some n) (hs : ss[n]? = some s) :
    Succeeds Γ d (tupleElement o r i) (Encoded.Fits Δ binders s) := by
  obtain ⟨u, hu, hsort⟩ := Ty.getElem?_of_haveSorts hr.elements hs
  unfold tupleElement
  simp only [hn, hu, hsort, orFail]
  refine succeeds_pure ⟨rfl, Term.composes_sort?.select (hr.parts.part (List.mem_of_getElem? hs)) rfl, hr.checks⟩

theorem succeeds_tupleType {env : Env} {v : Value} {ss : List SmtSort} (he : env.Sees Γ Δ binders)
    (hv : v.HasKind Δ (.tuple ss)) : Succeeds Γ d (tupleType env v) fun ts _ => Ty.HaveSorts ts ss := by
  obtain ⟨t, ht, ts, hts, hss⟩ := (hv.extend v (he.agreesOn _)).typeOf v
  refine after_lift ht ?_
  rw [hts]
  exact succeeds_pure hss

/-- The parts of a tuple that is a variable. -/
theorem succeeds_namedTuple {env : Env} (hΓ : Γ.Plain) (he : env.Sees Γ Δ binders) :
    ∀ {ts : List Ty} {ss done : List SmtSort} {parts : NameMap Term} {d : Declarations},
      Ty.HaveSorts ts ss →
      (∀ s ∈ ss, Γ.Symbol x (partName x s) (.array s)) → PartsSorted (IsOfSort binders d) parts done →
        Succeeds Γ d (namedTuple env x parts ts) fun r d' => PartsSorted (IsOfSort binders d') r (done ++ ss)
  | [], ss, done, parts, d, hts, hss, hparts => by
    cases hts
    rw [List.append_nil]
    exact succeeds_pure hparts
  | t :: ts, ss, done, parts, d, hts, hss, hparts => by
    obtain _ | ⟨hs, hrest⟩ := hts
    rename_i s ss
    have hplain : ¬ IsPlain (partName x s) := fun h => h.1 x s rfl
    have hfree := (he.get?_of_not_plain hplain).1
    refine after_orFail hs ?_
    refine (succeeds_declareConst hΓ he (fun h => absurd h hfree)
      fun _ => ⟨x, hss s List.mem_cons_self⟩).bind fun _ d₂ hd₂ hsort => ?_
    have hinsert := (hparts.grow hd₂).insert hsort
    rw [List.append_cons]
    exact succeeds_namedTuple hΓ he hrest (fun s' hs' => hss s' (List.mem_cons_of_mem s hs')) hinsert

theorem succeeds_named {env : Env} (hΓ : Γ.Plain) (he : env.Sees Γ Δ binders) {ss : List SmtSort}
    {ts : List Ty} {t : Ty} (hx : Δ.type? x = some t) (hts : t.underlying = .tuple ts) (hss : Ty.HaveSorts ts ss) :
    Succeeds Γ d (namedTuple env x .empty ts) fun r d' => PartsSorted (IsOfSort binders d') r ss := by
  have hfree : x ∉ env.bound := by
    intro hmem
    obtain ⟨t', s, ht', hs, -⟩ := he.bound x hmem
    obtain rfl := Option.mem_unique hx ht'
    exact Ty.sortOf_of_underlying_tuple hts s hs
  refine succeeds_namedTuple hΓ he hss (fun s hs => ?_) PartsSorted.empty
  obtain ⟨n, hn⟩ := List.mem_iff_getElem?.mp hs
  obtain ⟨u, hu, hsort⟩ := Ty.getElem?_of_haveSorts hss hn
  exact .part ((he.free x hfree).1.symm.trans hx) hts (List.mem_of_getElem? hu) hsort

/-- The parts of the result of a call. -/
theorem succeeds_callParts {env : Env} (he : env.Sees Γ Δ binders) {f : String} {g : Function}
    {as : EncodedArgs} {rs : List SmtSort} (hg : Γ.function? f = some g)
    (hks : g.Takes ks (.tuple rs)) :
    ∀ {ss done : List SmtSort} {parts : NameMap Term} {d : Declarations}, as.Fits Δ binders ks d →
      PartsSorted (IsOfSort binders d) parts done →
        Succeeds Γ d (callParts f as parts ss) fun r d' => PartsSorted (IsOfSort binders d') r (done ++ ss)
  | [], done, parts, d, has, hparts => by
    rw [List.append_nil]
    exact succeeds_pure hparts
  | s :: ss, done, parts, d, has, hparts => by
    have hsig : Γ.Signature (partName (functionName f) s) ⟨as.sorts, .array s⟩ := by
      rw [has.sorts, hks.argumentSorts]
      exact .part s hg
    refine (succeeds_declareFun he hsig has.terms).bind fun _ d₁ hd₁ hsort => ?_
    rw [List.append_cons]
    exact succeeds_callParts he hg hks (has.grow hd₁) ((hparts.grow hd₁).insert hsort)

theorem mem_partSorts {ts : List Ty} {ss : List SmtSort} (h : Ty.HaveSorts ts ss) :
    s ∈ Kind.partSorts ss ↔ s ∈ ss := by
  rw [← tupleSorts_eq h, mem_tupleSorts]
  induction h with
  | nil => simp
  | cons hs _ ih =>
    simp only [List.mem_cons, exists_eq_or_imp, hs, ih, Except.ok.injEq]
    exact or_congr_left eq_comm

theorem operationChecks_sorted {o : Operator} {a : Expr} {t : Term} (ha : a.HasSort Δ .int) :
    ChecksSorted Δ (operationChecks o a t) := by
  have hdivisor : ChecksSorted Δ [Check.divisor a t] := by
    intro c hc
    obtain rfl := List.mem_singleton.mp hc
    exact ⟨.int, ha, rfl⟩
  unfold operationChecks
  split <;> (try split_ifs) <;> first | exact hdivisor | exact checksSorted_nil

theorem ChecksSorted.close {t : Ty} (h : ChecksSorted (Δ.declare x t) cs) (hx : IsPlain x)
    (hs : t.sortOf = .ok s) : ChecksSorted Δ (cs.map (Check.close x t s)) := by
  intro c hc
  obtain ⟨c', hc', rfl⟩ := List.mem_map.mp hc
  exact ⟨hx, ⟨s, hs⟩, h c' hc'⟩

/-- Integers and truth values have an order. -/
theorem exists_orderTerm {c : Comparison} (hs : s = .int ∨ s = .bool) (a b : Term) :
    ∃ t, orderTerm c s a b = some t := by
  rcases hs with rfl | rfl
  · exact ⟨_, rfl⟩
  · cases c <;> exact ⟨_, rfl⟩

/-! ### Encodings of well-sorted nodes -/

mutual

theorem encodes_place (hΓ : Γ.Plain) (p : Place) {env Δ binders d s} (he : env.Sees Γ Δ binders)
    (hp : p.HasKind Δ (.scalar s)) : Succeeds Γ d (place env p) (Encoded.Fits Δ binders s) :=
  match p, hp with
  | .name x o, hp => by
    obtain ⟨t, ht, hs⟩ := id hp
    have hs : t.sortOf = .ok s := hs
    simp only [place, lookup, he.types x t ht, pure_bind, hs]
    exact (succeeds_variable hΓ he hp).bind fun _ d' _ hsort =>
      succeeds_pure ⟨rfl, hsort, checksSorted_nil⟩
  | .wildcard o, hp => hp.elim
  | .elem .array x i o, hp => by
    obtain ⟨s', hs', hx, hi⟩ := hp
    cases hs'
    obtain ⟨t, ht, hts⟩ := id hx
    obtain ⟨e, n, hunder, hes⟩ := Ty.underlying_of_sortOf_array hts
    have harray : (Ty.array e n).sortOf = .ok (.array s) := Ty.sortOf_array.mpr ⟨s, rfl, hes⟩
    simp only [place, lookup, he.types x t ht, pure_bind, hunder]
    refine after_orFail harray ?_
    refine (succeeds_variable hΓ he hx).bind fun _ d₂ _ hconst => ?_
    refine (encodes_value hΓ i he hi).bind fun r d₃ hd₃ hr => ?_
    refine (succeeds_requireSort hr).bind fun r' d₄ hd₄ hr' => ?_
    exact succeeds_arrayElement (Term.sort?_mono (hd₃.trans hd₄) _ hconst) hes hi hr'
  | .elem .tuple x i o, hp => by
    obtain ⟨ss, n, s', hs', ⟨t, ht, ts, hts, hss⟩, hn, hget⟩ := hp
    cases hs'
    simp only [place, lookup, he.types x t ht, pure_bind, hts]
    exact (succeeds_named hΓ he ht hts hss).bind fun parts d₁ _ hparts =>
      succeeds_tupleElement ⟨hss, hparts, checksSorted_nil⟩ hn hget

/-- A well-sorted value that is no tuple becomes a term of its sort. -/
theorem encodes_value (hΓ : Γ.Plain) (v : Value) {env Δ binders d s} (he : env.Sees Γ Δ binders)
    (hv : v.HasKind Δ (.scalar s)) : Succeeds Γ d (value env v) (Encoded.Fits Δ binders s) :=
  match v, hv with
  | .expr a o, hv => by
    obtain ⟨hs, ha⟩ := hv
    cases hs
    exact (encodes_expr hΓ a he ha).bind fun r d' _ hr => succeeds_requireInt hr
  | .formula f o, hv => by
    obtain ⟨hs, hf⟩ := hv
    cases hs
    exact encodes_formula hΓ f he hf
  | .place p o, hv => encodes_place hΓ p he hv
  | .array [] o, hv => by
    obtain ⟨s', -, hne, -⟩ := hv
    exact absurd rfl hne
  | .array (v :: vs) o, hv => by
    obtain ⟨s', hs', -, hvs⟩ := hv
    cases hs'
    obtain ⟨k, ks, hks, hv, hvs⟩ := hvs
    obtain ⟨rfl, rfl⟩ := List.cons.inj hks
    refine (encodes_value hΓ v he hv).bind fun r d₁ _ hr => ?_
    refine encodes_elements hΓ vs he hvs ⟨congrArg SmtSort.array hr.sort, ?_, hr.checks⟩ hr.sort
    simp only [Term.sort?, hr.sort, hr.term, if_pos]
  | .call f vs o, hv => by
    obtain ⟨g, ks, hg, hks, hvs⟩ := hv
    have hs : g.output.sortOf = .ok s := hks.output
    have hunit := hks.units.resolve_left (by simp)
    have hΓg : Γ.function? f = some g := (he.same f).symm.trans hg
    simp only [value, (he.functions f).trans hΓg, hs]
    refine (encodes_args hΓ vs he hvs hunit).bind fun as d₁ _ has => ?_
    have hsig : Γ.Signature (functionName f) ⟨as.sorts, s⟩ := by
      rw [has.sorts, hks.argumentSorts]
      exact .self hΓg hs
    refine (succeeds_declareFun he hsig has.terms).bind fun _ d₂ _ hsort => ?_
    exact succeeds_pure ⟨rfl, hsort, has.checks⟩
  | .ref v _ _, hv | .deref v _, hv => encodes_value hΓ v he hv
  | .ite c v w o, hv => by
    obtain ⟨hc, hv, hw⟩ := hv
    refine (encodes_formula hΓ c he hc).bind fun rc d₁ _ hrc => ?_
    refine (encodes_value hΓ v he hv).bind fun rv d₂ hd₂ hrv => ?_
    refine (encodes_value hΓ w he hw).bind fun rw d₃ hd₃ hrw => ?_
    rw [if_pos (hrv.sort.trans hrw.sort.symm)]
    refine succeeds_pure ⟨hrv.sort, ?_, branchChecks_sorted hc hrc.checks hrv.checks hrw.checks⟩
    exact Term.composes_sort?.ite (hrc.grow (hd₂.trans hd₃)).term (hrv.grow hd₃).term hrw.term
  | .select .tuple b i o, hv => by
    obtain ⟨ss, n, s', hs', hb, hn, hget⟩ := hv
    cases hs'
    exact (encodes_tuple hΓ b he hb).bind fun r d₁ _ hr => succeeds_tupleElement hr hn hget
  | .select .array b i o, hv => by
    obtain ⟨s', hs', hb, hi⟩ := hv
    cases hs'
    obtain ⟨t, ht, hts⟩ := (hb.extend b (he.agreesOn _)).typeOf b
    obtain ⟨e, n, hunder, hes⟩ := Ty.underlying_of_sortOf_array hts
    refine after_lift ht ?_
    simp only [hunder]
    refine (encodes_value hΓ b he hb).bind fun rb d₂ _ hrb => ?_
    refine (encodes_value hΓ i he hi).bind fun ri d₃ hd₃ hri => ?_
    refine (succeeds_requireSort hri).bind fun ri' d₄ hd₄ hri' => ?_
    refine (succeeds_arrayElement (hrb.grow (hd₃.trans hd₄)).term hes hi hri').bind fun r d₅ _ hr => ?_
    exact succeeds_pure ⟨hr.sort, hr.term, hrb.checks.append hr.checks⟩
  | .store .tuple b i e o, hv => by
    obtain ⟨ss, n, s', hs', -⟩ := hv
    cases hs'
  | .store .array b i e o, hv => by
    obtain ⟨s', hs', hb, hi, hnew⟩ := hv
    cases hs'
    refine (encodes_value hΓ b he hb).bind fun rb d₁ _ hrb => ?_
    refine (encodes_value hΓ i he hi).bind fun ri d₂ hd₂ hri => ?_
    refine (succeeds_requireSort hri).bind fun ri' d₃ hd₃ hri' => ?_
    refine (encodes_value hΓ e he hnew).bind fun r d₄ hd₄ hr => ?_
    refine succeeds_pure ⟨hrb.sort, ?_, (hrb.checks.append hri'.checks).append hr.checks⟩
    exact Term.composes_sort?.store (hrb.grow ((hd₂.trans hd₃).trans hd₄)).term (hri'.grow hd₄).term hr.term
  | .tuple vs o, hv => by
    obtain ⟨ss, hs, -⟩ := hv
    cases hs
  | .unit o, hv => by cases hv
  | .missing, hv => hv.elim

theorem encodes_elements (hΓ : Γ.Plain) (vs : List Value) {env Δ binders d o r s s' i}
    (he : env.Sees Γ Δ binders) (hvs : Value.HaveKinds Δ vs (List.replicate vs.length (.scalar s)))
    (hr : r.Fits Δ binders (.array s) d) (hs : s' = s) :
    Succeeds Γ d (elements env o r s' i vs) (Encoded.Fits Δ binders (.array s)) :=
  match vs, hvs with
  | [], hvs => succeeds_pure hr
  | v :: vs, hvs => by
    obtain ⟨k, ks, hks, hv, hvs⟩ := hvs
    obtain ⟨rfl, rfl⟩ := List.cons.inj hks
    refine (encodes_value hΓ v he hv).bind fun rv d₁ hd₁ hrv => ?_
    rw [if_pos (hrv.sort.trans hs.symm)]
    refine encodes_elements hΓ vs he hvs ⟨hr.sort, ?_, hr.checks.append hrv.checks⟩ hs
    exact Term.composes_sort?.store (hr.grow hd₁).term rfl hrv.term

theorem encodes_args (hΓ : Γ.Plain) (vs : List Value) {env Δ binders d ks} (he : env.Sees Γ Δ binders)
    (hvs : Value.HaveKinds Δ vs ks) (hks : .unit ∉ ks) :
    Succeeds Γ d (args env vs) (EncodedArgs.Fits Δ binders ks) :=
  match vs, hvs with
  | [], hvs => by
    cases hvs
    exact succeeds_pure ⟨rfl, rfl, checksSorted_nil⟩
  | v :: vs, hvs => by
    obtain ⟨k, ks, rfl, hv, htail⟩ := hvs
    obtain ⟨hk, hunit⟩ := not_or.mp (List.mem_cons.not.mp hks)
    obtain ⟨t, ht, hkind⟩ := (hv.extend v (he.agreesOn _)).typeOf v
    refine after_lift ht ?_
    cases k with
    | unit => exact absurd rfl hk
    | scalar s =>
      have hnot : ∀ ts, t.underlying ≠ .tuple ts := fun ts hts =>
        Ty.sortOf_of_underlying_tuple hts s hkind
      split
      · next ts hts => exact absurd hts (hnot ts)
      · refine (encodes_value hΓ v he hv).bind fun r d₂ _ hr => ?_
        refine (encodes_args hΓ vs he htail hunit).bind fun rest d₃ hd₃ hrest => ?_
        refine succeeds_pure ⟨?_, ?_, hr.checks.append hrest.checks⟩
        · simp only [hr.sort, hrest.sorts, List.flatMap_cons, Kind.argumentSorts, List.singleton_append]
        · simp only [Term.sorts?, (hr.grow hd₃).term, hrest.terms, hr.sort, Option.bind_some,
            Option.map_some]
    | tuple ss =>
      obtain ⟨ts, hts, hss⟩ := hkind
      simp only [hts]
      refine (encodes_tuple hΓ v he hv).bind fun r d₂ _ hr => ?_
      refine (encodes_args hΓ vs he htail hunit).bind fun rest d₃ hd₃ hrest => ?_
      have hparts := (hr.grow hd₃).parts
      refine succeeds_pure ⟨?_, ?_, hr.checks.append hrest.checks⟩
      · simp only [tupleSorts_eq hr.elements, hrest.sorts, List.flatMap_cons, Kind.argumentSorts]
      · refine Term.sorts?_append (hparts.sorts_parts fun s hs => ?_) hrest.terms
        rw [tupleSorts_eq hr.elements] at hs
        exact (mem_partSorts hr.elements).mp hs

/-- A well-sorted tuple becomes arrays of the sorts of its elements. -/
theorem encodes_tuple (hΓ : Γ.Plain) (v : Value) {env Δ binders d ss} (he : env.Sees Γ Δ binders)
    (hv : v.HasKind Δ (.tuple ss)) : Succeeds Γ d (tuple env v) (EncodedTuple.Fits Δ binders ss) :=
  match v, hv with
  | .place (.name x o) o', hv => by
    obtain ⟨t, ht, ts, hts, hss⟩ := id hv
    have htype : (Value.place (.name x o) o').typeOf env.scope = .ok t := by
      simp only [Value.typeOf, Place.typeOf, he.types x t ht]
    simp only [tuple, tupleType, htype, lift, pure_bind, hts]
    exact (succeeds_named hΓ he ht hts hss).bind fun parts d₁ _ hparts =>
      succeeds_pure ⟨hss, hparts, checksSorted_nil⟩
  | .tuple vs o, hv => by
    obtain ⟨ss', hss', hvs⟩ := id hv
    cases hss'
    refine (succeeds_tupleType he hv).bind fun ts d₁ _ hts => ?_
    refine (encodes_literal hΓ vs he hvs PartsSorted.empty checksSorted_nil).bind fun r d₂ _ hr => ?_
    exact succeeds_pure ⟨hts, hr.2, hr.1⟩
  | .ref v m o, hv | .deref v o, hv =>
    (succeeds_tupleType he hv).bind fun _ d₁ _ _ => encodes_tuple hΓ v he hv
  | .ite c v w o, hv => by
    obtain ⟨hc, hv₁, hw⟩ := id hv
    refine (succeeds_tupleType he hv).bind fun ts d₁ _ hts => ?_
    refine (encodes_formula hΓ c he hc).bind fun rc d₂ _ hrc => ?_
    refine (encodes_tuple hΓ v he hv₁).bind fun rv d₃ hd₃ hrv => ?_
    refine (encodes_tuple hΓ w he hw).bind fun rw d₄ hd₄ hrw => ?_
    refine succeeds_pure ⟨hts, ?_, branchChecks_sorted hc hrc.checks hrv.checks hrw.checks⟩
    exact (hrv.grow hd₄).parts.choice Term.composes_sort? (hrc.grow (hd₃.trans hd₄)).term
      fun _ => hrw.parts.part
  | .store shape b i e o, hv => by
    obtain _ | _ := shape
    · obtain ⟨s, hs, -⟩ := hv
      cases hs
    · obtain ⟨ss', n, s, hss', hb, hn, hget, he'⟩ := id hv
      cases hss'
      refine (succeeds_tupleType he hv).bind fun ts d₁ _ hts => ?_
      refine (encodes_tuple hΓ b he hb).bind fun rb d₂ _ hrb => ?_
      have hlt : n < ts.length := by
        rw [hts.length_eq]
        exact (List.getElem?_eq_some_iff.mp hget).1
      simp only [hn, Option.filter_some, hlt, decide_true, if_true]
      refine (encodes_value hΓ e he he').bind fun r d₃ hd₃ hr => ?_
      have hmem : s ∈ ss := List.mem_of_getElem? hget
      have hstore : (Term.store (part rb.parts s) (.int (Int64.ofNat n)) r.term).sort? d₃ binders =
          some (.array s) := Term.composes_sort?.store ((hrb.grow hd₃).parts.part hmem) rfl hr.term
      refine succeeds_pure ⟨hts, ?_, hrb.checks.append hr.checks⟩
      simp only [hr.sort]
      exact ((hrb.grow hd₃).parts.insert hstore).congr fun s' => by simp +contextual [hmem]
  | .call f vs o, hv => by
    obtain ⟨g, ks, hg, hks, hvs⟩ := id hv
    have hunit := hks.units.resolve_left (by simp)
    have hΓg : Γ.function? f = some g := (he.same f).symm.trans hg
    refine (succeeds_tupleType he hv).bind fun ts d₁ _ hts => ?_
    refine (encodes_args hΓ vs he hvs hunit).bind fun as d₂ _ has => ?_
    refine (succeeds_callParts he hΓg hks has PartsSorted.empty).bind fun parts d₃ _ hparts => ?_
    refine succeeds_pure ⟨hts, hparts.congr fun s => ?_, has.checks⟩
    rw [List.nil_append, tupleSorts_eq hts, mem_partSorts hts]
  | .expr _ _, hv | .formula _ _, hv => by
    cases hv.1
  | .place (.wildcard _) _, hv | .missing, hv => hv.elim
  | .place (.elem .array _ _ _) _, hv | .select .array _ _ _, hv | .array _ _, hv => by
    obtain ⟨s, hs, -⟩ := hv
    cases hs
  | .place (.elem .tuple _ _ _) _, hv | .select .tuple _ _ _, hv => by
    obtain ⟨ss', n, s, hs, -⟩ := hv
    cases hs
  | .unit _, hv => by cases hv

theorem encodes_literal (hΓ : Γ.Plain) (vs : List Value) {env Δ binders d cs parts i ss done}
    (he : env.Sees Γ Δ binders) (hvs : Value.HaveKinds Δ vs (ss.map .scalar))
    (hparts : PartsSorted (IsOfSort binders d) parts done) (hcs : ChecksSorted Δ cs) :
    Succeeds Γ d (literal env cs parts i vs) fun r d' => ChecksSorted Δ r.1 ∧
      PartsSorted (IsOfSort binders d') r.2 (done ++ ss) :=
  match vs, hvs with
  | [], hvs => by
    obtain rfl : ss = [] := List.map_eq_nil_iff.mp hvs
    simp only [literal, List.append_nil]
    exact succeeds_pure ⟨hcs, hparts⟩
  | v :: vs, hvs => by
    obtain ⟨k, ks, hks, hv, htail⟩ := hvs
    obtain ⟨s, ss, rfl, rfl, rfl⟩ := List.map_eq_cons_iff.mp hks
    refine (encodes_value hΓ v he hv).bind fun r d₁ hd₁ hr => ?_
    rw [List.append_cons]
    obtain ⟨rfl, hterm, hchecks⟩ := hr
    exact encodes_literal hΓ vs he htail ((hparts.grow hd₁).literalPart Term.composes_sort? hterm)
      (hcs.append hchecks)

theorem encodes_expr (hΓ : Γ.Plain) (a : Expr) {env Δ binders d s} (he : env.Sees Γ Δ binders)
    (ha : a.HasSort Δ s) : Succeeds Γ d (expr env a) (Encoded.Fits Δ binders s) :=
  match a, ha with
  | .num n, ha => by
    cases ha
    exact succeeds_pure ⟨rfl, rfl, checksSorted_nil⟩
  | .value v, ha => encodes_value hΓ v he ha
  | .op o a b, ha => by
    obtain ⟨rfl, ha, hb⟩ := ha
    refine (encodes_expr hΓ a he ha).bind fun ra d₁ _ hra => ?_
    refine (succeeds_requireInt hra).bind fun ra' d₂ _ hra' => ?_
    refine (encodes_expr hΓ b he hb).bind fun rb d₃ hd₃ hrb => ?_
    refine (succeeds_requireInt hrb).bind fun rb' d₄ hd₄ hrb' => ?_
    refine succeeds_pure ⟨rfl, ?_, (hra'.checks.append hrb'.checks).append (operationChecks_sorted hb)⟩
    exact Term.composes_sort?.arithmetic o (hra'.grow (hd₃.trans hd₄)).term hrb'.term

/-- A well-sorted formula becomes a term of the sort of truth values. -/
theorem encodes_formula (hΓ : Γ.Plain) (f : Formula) {env Δ binders d} (he : env.Sees Γ Δ binders)
    (hf : f.IsSorted Δ) : Succeeds Γ d (formula env f) (Encoded.Fits Δ binders .bool) :=
  match f, hf with
  | .lit b, hf => succeeds_pure ⟨rfl, rfl, checksSorted_nil⟩
  | .and f g, hf | .or f g, hf => by
    obtain ⟨hf, hg⟩ := hf
    refine (encodes_formula hΓ f he hf).bind fun rf d₁ _ hrf => ?_
    refine (encodes_formula hΓ g he hg).bind fun rg d₂ hd₂ hrg => ?_
    refine succeeds_pure ⟨rfl, ?_, hrf.checks.append (hrg.checks.guard ?_ _)⟩
    · exact Term.composes_sort?.join (fun _ => rfl) (hrf.grow hd₂).term hrg.term
    · first | exact hf | exact hf.negate
  | .not f, hf =>
    (encodes_formula hΓ f he hf).bind fun r d₁ _ hr =>
      succeeds_pure ⟨rfl, Term.composes_sort?.not hr.term, hr.checks⟩
  | .value v, hf => (encodes_value hΓ v he hf).bind fun r d₁ _ hr => succeeds_requireSort hr
  | .equal a b, hf => by
    obtain ⟨s, ha, hb⟩ := hf
    refine (encodes_expr hΓ a he ha).bind fun ra d₁ _ hra => ?_
    refine (encodes_expr hΓ b he hb).bind fun rb d₂ hd₂ hrb => ?_
    rw [if_pos (hra.sort.trans hrb.sort.symm)]
    exact succeeds_pure ⟨rfl, Term.composes_sort?.eq (hra.grow hd₂).term hrb.term, hra.checks.append hrb.checks⟩
  | .compare c a b, hf => by
    obtain ⟨s, hs, ha, hb⟩ := hf
    refine (encodes_expr hΓ a he ha).bind fun ra d₁ _ hra => ?_
    refine (encodes_expr hΓ b he hb).bind fun rb d₂ hd₂ hrb => ?_
    obtain ⟨t, ht⟩ := exists_orderTerm (c := c) hs ra.term rb.term
    have hsort := Term.composes_sort?.order ht (hra.grow hd₂).term hrb.term
    rw [if_pos (hra.sort.trans hrb.sort.symm)]
    simp only [hra.sort, ht]
    exact succeeds_pure ⟨rfl, hsort, hra.checks.append hrb.checks⟩
  | .quant q x t f, hf => by
    obtain ⟨hx, ⟨s, hs⟩, hf⟩ := hf
    refine after_orFail hs ?_
    refine (encodes_formula hΓ f (he.bind hx hs) hf).bind fun r d₂ _ hr => ?_
    refine succeeds_pure ⟨rfl, ?_, hr.checks.close hx hs⟩
    simp only [Term.sort?, hr.term, if_pos]

end

theorem Env.Sees.ofScope (hΓ : Γ.Plain) : (Env.ofScope Γ).Sees Γ Γ .empty :=
  ⟨fun _ _ => id, fun _ => rfl, fun _ => rfl, hΓ, fun _ hx => absurd hx List.not_mem_nil,
    fun _ _ => ⟨rfl, rfl⟩⟩

theorem encodes_encodeAll (hΓ : Γ.Plain) : ∀ {fs : List Formula} {d : Declarations},
    (∀ f ∈ fs, f.IsSorted Γ) → Succeeds Γ d (Obligation.encodeAll (.ofScope Γ) fs) fun ts d' =>
      ∀ t ∈ ts, t.sort? d' .empty = some .bool
  | [], d, _ => succeeds_pure fun _ ht => absurd ht List.not_mem_nil
  | f :: fs, d, hfs => by
    refine (encodes_formula hΓ f (.ofScope hΓ) (hfs f List.mem_cons_self)).bind fun r d₁ _ hr => ?_
    refine (encodes_encodeAll hΓ fun g hg => hfs g (List.mem_cons_of_mem f hg)).bind
      fun ts d₂ hd₂ hts => ?_
    refine succeeds_pure fun t ht => ?_
    rcases List.mem_cons.mp ht with rfl | ht
    · exact (hr.grow hd₂).term
    · exact hts t ht

end Encoding

/-! ### Queries -/

/-- Whether no name is declared twice, and all assertions are truth values under what is declared. -/
structure Query.WellSorted (q : Query) : Prop where
  apart : ∀ n s, q.declarations.consts.get? n = some s → q.declarations.funs.get? n = none
  assertions : ∀ t ∈ q.assertions, t.sort? q.declarations .empty = some .bool

/-- A well-sorted query can be written. -/
theorem Query.WellSorted.exists_print {q : Query} (h : q.WellSorted) (layout : Option Layout) :
    ∃ text, q.print? layout = some text := by
  have hterms : ∀ ts : List Term, (∀ t ∈ ts, t.sort? q.declarations .empty = some .bool) →
      ∃ es, ts.mapM Term.toSExp = some es := by
    intro ts hts
    induction ts with
    | nil => exact ⟨[], rfl⟩
    | cons t ts ih =>
      obtain ⟨e, he⟩ := t.exists_toSExp (hts t List.mem_cons_self)
      obtain ⟨es, hes⟩ := ih fun u hu => hts u (List.mem_cons_of_mem t hu)
      exact ⟨e :: es, by simp [he, hes]⟩
  obtain ⟨es, hes⟩ := hterms q.assertions h.assertions
  simp [print?, script?, commands?, hes]

/-- Constants and functions that agree with a scope have different names. -/
theorem Declarations.Agrees.apart {d : Declarations} {Γ : Scope} (h : d.Agrees Γ) (hΓ : Γ.Plain) {s : SmtSort}
    (hn : d.consts.get? n = some s) : d.funs.get? n = none := by
  refine Option.eq_none_iff_forall_ne_some.mpr fun sig hsig => ?_
  obtain ⟨x, hx⟩ := h.consts n s hn
  have hfun := h.funs n sig hsig
  cases hx with
  | self ht _ =>
    have hplain := hΓ n _ ht
    cases hfun with
    | self => exact hplain.2 _ rfl
    | part => exact hplain.1 _ _ rfl
  | part ht _ _ _ =>
    generalize hm : partName x _ = m at hfun
    cases hfun with
    | self => exact absurd hm.symm (functionName_ne_partName _ _ _)
    | part => exact (hΓ x _ ht).2 _ (partName_inj.mp hm).1

/-- The query for a well-sorted obligation can be made, and is well-sorted. -/
theorem Obligation.query_wellSorted {o : Obligation} (hscope : o.scope.Plain)
    (h : ∀ f ∈ o.formulas, f.IsSorted o.scope) : ∃ q, o.query = .ok q ∧ q.WellSorted := by
  simp only [formulas, List.forall_mem_cons] at h
  have hencode : Succeeds o.scope default o.encode fun ts d =>
      ∀ t ∈ ts, t.sort? d .empty = some .bool := by
    refine (encodes_encodeAll hscope h.2).bind fun ts d₁ _ hts => ?_
    refine (encodes_formula hscope o.goal (.ofScope hscope) h.1).bind fun r d₂ hd₂ hr => ?_
    refine succeeds_pure fun t ht => ?_
    rcases List.mem_append.mp ht with ht | ht
    · exact t.sort?_mono hd₂ (hts t ht)
    · obtain rfl := List.mem_singleton.mp ht
      exact Term.composes_sort?.not hr.term
  obtain ⟨ts, d, hrun, -, hagrees, hts⟩ := hencode (Declarations.agrees_default _)
  refine ⟨⟨o.print, d, ts⟩, ?_, fun n s hn => hagrees.apart hscope hn, hts⟩
  rw [query, hrun]

end Verdict
