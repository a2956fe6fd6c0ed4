import Verdict.Proofs.Renaming
import Verdict.Lang.Scoping

/-! # Encoding does not depend on the names of bound variables

If variables are renamed, an encoding succeeds if it did before, and gives a term that denotes the same
in models that differ in the names of the variables only. Parts of tuples and functions keep the names
that the solver has for them, so these names must not be those of binders. It follows that a quantified
formula has the same truth value in every model whatever its variable is called, as long as no binder has
a name that is reserved for the solver. -/

namespace Verdict

namespace Encoding

variable {α β γ δ : Type} {P : α → β → Prop} {Q : γ → δ → Prop}

/-! ### Computations that end alike -/

/-- Whether two results are both faults, or are related. -/
inductive EndAlike (P : α → β → Prop) : Except Fault α → Except Fault β → Prop
  | ok {a : α} {b : β} : P a b → EndAlike P (.ok a) (.ok b)
  | error (e e' : Fault) : EndAlike P (.error e) (.error e')

/-- Whether two computations end alike, whatever has been declared. -/
def Mirrors (P : α → β → Prop) (m : EncodeM α) (m' : EncodeM β) : Prop :=
  ∀ d d', EndAlike P (m.run.run d).1 (m'.run.run d').1

theorem EndAlike.map {r r'} (h : EndAlike P r r') {f : α → γ} {g : β → δ}
    (hfg : ∀ a b, P a b → Q (f a) (g b)) : EndAlike Q (r.map f) (r'.map g) := by
  cases h with
  | ok h => exact .ok (hfg _ _ h)
  | error e e' => exact .error e e'

theorem EndAlike.bind {r r'} (h : EndAlike P r r') {f : α → Except Fault γ}
    {g : β → Except Fault δ} (hfg : ∀ a b, P a b → EndAlike Q (f a) (g b)) :
    EndAlike Q (r >>= f) (r' >>= g) := by
  cases h with
  | ok h => exact hfg _ _ h
  | error e e' => exact .error e e'

theorem EndAlike.bindEq {r r' : Except Fault α} (h : EndAlike Eq r r')
    {f : α → Except Fault γ} {g : α → Except Fault δ} (hfg : ∀ a, EndAlike Q (f a) (g a)) :
    EndAlike Q (r >>= f) (r' >>= g) :=
  h.bind fun a _ heq => heq ▸ hfg a

theorem Mirrors.bind {m m'} (h : Mirrors P m m') {f : α → EncodeM γ} {g : β → EncodeM δ}
    (hfg : ∀ a b, P a b → Mirrors Q (f a) (g b)) : Mirrors Q (m >>= f) (m' >>= g) := by
  intro d d'
  rw [run_bind, run_bind]
  have hend := h d d'
  rcases hrun : m.run.run d with ⟨e | a, d₁⟩ <;> rcases hrun' : m'.run.run d' with ⟨e' | b, d₁'⟩ <;>
    rw [hrun, hrun'] at hend <;> cases hend
  · exact .error e e'
  · next hab => exact hfg a b hab d₁ d₁'

theorem Mirrors.bindEq {P : α → Prop} {m m' : EncodeM α}
    (h : Mirrors (fun a a' => a = a' ∧ P a) m m') {f : α → EncodeM γ} {g : α → EncodeM δ}
    (hfg : ∀ a, P a → Mirrors Q (f a) (g a)) : Mirrors Q (m >>= f) (m' >>= g) :=
  h.bind fun a _ ⟨heq, ha⟩ => heq ▸ hfg a ha

theorem mirrors_pure {a b} (h : P a b) : Mirrors P (pure a) (pure b) :=
  fun _ _ => .ok h

theorem mirrors_fail {o o' : Origin} {c c' : Cause} : Mirrors P (fail o c) (fail o' c') :=
  fun _ _ => .error _ _

theorem mirrors_lift {r r'} (h : EndAlike P r r') : Mirrors P (lift r) (lift r') := by
  cases h with
  | ok h => exact mirrors_pure h
  | error e e' => exact fun _ _ => .error e e'

theorem mirrors_orFail (r : Except Cause α) :
    Mirrors (fun a a' => a = a' ∧ r = .ok a) (orFail r) (orFail r) := by
  cases r with
  | error c => exact mirrors_fail
  | ok a => exact mirrors_pure ⟨rfl, rfl⟩

theorem mirrors_lookup {env env' : Env} {x y : String} (h : env.scope.type? x = env'.scope.type? y)
    {o o' : Origin} :
    Mirrors (fun t t' => t = t' ∧ env.scope.type? x = some t) (lookup env x o) (lookup env' y o') := by
  unfold lookup
  rw [← h]
  split
  · next t ht => exact mirrors_pure ⟨rfl, ht⟩
  · exact mirrors_fail

theorem mirrors_declareConst {env env' : Env} {x y : String} {s s' : SmtSort} :
    Mirrors (fun _ _ => True) (declareConst env x s) (declareConst env' y s') := by
  unfold declareConst
  split <;> split <;> exact fun _ _ => .ok trivial

theorem mirrors_declareFun {f f' : String} {sig sig' : FunctionSort} :
    Mirrors (fun _ _ => True) (declareFun f sig) (declareFun f' sig') :=
  fun _ _ => .ok trivial

end Encoding

/-! ### Terms that denote the same -/

/-- Whether two models give functions with arguments the same meaning. -/
structure SmtModel.Shares (M M' : SmtModel) : Prop where
  byZero : M.byZero = M'.byZero
  fn : M.fn = M'.fn

theorem SmtModel.Shares.apply {M M' : SmtModel} (h : M.Shares M') (f : String) (ds : List Datum)
    (hconst : ds = [] → M.const f = M'.const f) : M.apply f ds = M'.apply f ds := by
  unfold SmtModel.apply
  rw [h.byZero, h.fn]
  split <;> simp_all

/-- Whether two terms denote the same in models that are related. -/
structure Term.Mirrors (K : SmtModel → SmtModel → Prop) (t t' : Term) : Prop where
  isLit : ∀ b, t.isLit b = t'.isLit b
  eval : ∀ M M', K M M' → t.eval M = t'.eval M'

namespace Term

variable {K : SmtModel → SmtModel → Prop} {t t' u u' w w' : Term}

theorem Mirrors.evalAll {ts ts'} (h : List.Forall₂ (Mirrors K) ts ts') {M M' : SmtModel}
    (hM : K M M') : Term.evalAll M ts = Term.evalAll M' ts' := by
  induction h with
  | nil => simp
  | cons h _ ih => simp [h.eval M M' hM, ih]

theorem Mirrors.app (hK : ∀ M M', K M M' → M.Shares M') {f : String} {ts ts' : List Term}
    (h : List.Forall₂ (Mirrors K) ts ts')
    (hf : ts = [] → ∀ M M', K M M' → M.const f = M'.const f) :
    (Term.app f ts).Mirrors K (.app f ts') := by
  refine ⟨fun _ => rfl, fun M M' hM => ?_⟩
  rw [Term.eval, Term.eval, ← evalAll h hM]
  refine (hK M M' hM).apply f _ fun hnil => hf ?_ M M' hM
  rwa [evalAll_eq_map, List.map_eq_nil_iff] at hnil

theorem Mirrors.lit (b : Bool) : (Term.lit b).Mirrors K (.lit b) :=
  ⟨fun _ => rfl, fun _ _ _ => by simp⟩

theorem Mirrors.constArray (h : t.Mirrors K t') (s : SmtSort) :
    (Term.constArray s t).Mirrors K (.constArray s t') :=
  ⟨fun _ => rfl, fun M M' hM => by simp [h.eval M M' hM]⟩

section

variable (hK : ∀ M M', K M M' → M.Shares M')

include hK

theorem Mirrors.app₂ (f : String) (ht : t.Mirrors K t') (hu : u.Mirrors K u') :
    (Term.app f [t, u]).Mirrors K (.app f [t', u']) :=
  .app hK (.cons ht (.cons hu .nil)) fun h => by cases h

theorem Mirrors.app₃ (f : String) (ht : t.Mirrors K t') (hu : u.Mirrors K u')
    (hw : w.Mirrors K w') : (Term.app f [t, u, w]).Mirrors K (.app f [t', u', w']) :=
  .app hK (.cons ht (.cons hu (.cons hw .nil))) fun h => by cases h

theorem Mirrors.join (f : String) (b : Bool) (ht : t.Mirrors K t') (hu : u.Mirrors K u') :
    (join f b [t, u]).Mirrors K (join f b [t', u']) := by
  unfold Term.join
  by_cases hlt : t.isLit b = true <;> by_cases hlu : u.isLit b = true <;>
    simp only [List.filter, ← ht.isLit, ← hu.isLit, hlt, hlu, Bool.not_true, Bool.not_false]
  · exact lit b
  · exact hu
  · exact ht
  · exact app₂ hK f ht hu

theorem Mirrors.not (h : t.Mirrors K t') : t.not.Mirrors K t'.not := by
  have hlit := h.isLit
  cases t with
  | lit b =>
    obtain rfl := eq_lit_of_isLit ((hlit b).symm.trans (by simp [Term.isLit]))
    exact lit _
  | _ =>
    cases t' with
    | lit b => have := hlit b; simp [Term.isLit] at this
    | _ => exact app hK (.cons h .nil) fun h => by cases h

theorem Mirrors.implies (ht : t.Mirrors K t') (hu : u.Mirrors K u') :
    (implies t u).Mirrors K (implies t' u') := by
  unfold Term.implies
  rw [← ht.isLit]
  split
  · exact hu
  · exact app₂ hK "=>" ht hu

end

end Term

namespace Encoding

variable {σ : String → String} {Γ : Scope} {env env' : Env} {K : SmtModel → SmtModel → Prop}
  {xs ys : Names}

/-! ### Environments that differ in names -/

/-- Whether two environments below a scope differ in the names of variables, and related models too.
What the solver has for tuples and functions of the scope keeps its name. -/
structure Renames (σ : String → String) (Γ : Scope) (env env' : Env)
    (K : SmtModel → SmtModel → Prop) (xs : Names) : Prop where
  type : ∀ x ∈ xs.members, env.scope.type? x = env'.scope.type? (σ x)
  function : ∀ f, env.scope.function? f = Γ.function? f
  renamed : ∀ f, env'.scope.function? f = Γ.function? f
  tuple : ∀ x ∈ xs.members, ∀ t ts, env.scope.type? x = some t → t.underlying = .tuple ts →
    σ x = x ∧ Γ.type? x = some t
  moved : ∀ x ∈ xs.members, σ x ≠ x → ¬ Γ.Reserves (σ x)
  shares : ∀ M M', K M M' → M.Shares M'
  const : ∀ x ∈ xs.members, ∀ M M', K M M' → M.const x = M'.const (σ x)
  fixed : ∀ n, Γ.Reserves n → ∀ M M', K M M' → M.const n = M'.const n

namespace Renames

theorem mono (h : Renames σ Γ env env' K xs) (hxs : ∀ x ∈ ys.members, x ∈ xs.members) :
    Renames σ Γ env env' K ys :=
  ⟨fun x hx => h.type x (hxs x hx), h.function, h.renamed, fun x hx => h.tuple x (hxs x hx),
    fun x hx => h.moved x (hxs x hx), h.shares, fun x hx => h.const x (hxs x hx), h.fixed⟩

theorem left (h : Renames σ Γ env env' K (xs.union ys)) : Renames σ Γ env env' K xs :=
  h.mono fun x hx => by simp [hx]

theorem right (h : Renames σ Γ env env' K (xs.union ys)) : Renames σ Γ env env' K ys :=
  h.mono fun x hx => by simp [hx]

end Renames

/-- The models below binders of `z` and `z'`. -/
def BindBoth (K : SmtModel → SmtModel → Prop) (z z' : String) (M M' : SmtModel) : Prop :=
  ∃ N N' d, K N N' ∧ M = N.bind z d ∧ M' = N'.bind z' d

variable {s : SmtSort} {z : String} {t : Ty} {v : Value} {p p' : NameMap Term} {r r' : Encoded}

/-- Binders of two names, neither of which is wanted for something else. -/
theorem Renames.bindBoth {z' : String} (h : Renames σ Γ env env' K (xs.erase z)) (hs : t.sortOf = .ok s)
    (hapart : ∀ x ∈ xs.members, x ≠ z → σ x ≠ z') (hz : z' = z ∨ ¬ Γ.Reserves z ∧ ¬ Γ.Reserves z') :
    Renames (Function.update σ z z') Γ (env.bind z t) (env'.bind z' t) (BindBoth K z z') xs := by
  have hold : ∀ x ∈ xs.members, x ≠ z → x ∈ (xs.erase z).members := fun x hx hne =>
    (SortedSet.mem_erase _ _ _).mpr ⟨hx, hne⟩
  refine ⟨fun x hx => ?_, h.function, h.renamed, fun x hx u us hu hus => ?_, fun x hx hne => ?_, ?_,
    fun x hx => ?_, fun n hn => ?_⟩
  · simp only [Env.bind, Scope.type?_declare]
    by_cases hxz : x = z
    · subst hxz
      simp
    · rw [if_neg (Ne.symm hxz), Function.update_of_ne hxz, if_neg (Ne.symm (hapart x hx hxz))]
      exact h.type x (hold x hx hxz)
  · simp only [Env.bind, Scope.type?_declare] at hu
    by_cases hxz : x = z
    · rw [if_pos hxz.symm] at hu
      obtain rfl := Option.some_inj.mp hu
      exact absurd hs (Ty.sortOf_of_underlying_tuple hus s)
    · rw [if_neg (Ne.symm hxz)] at hu
      rw [Function.update_of_ne hxz]
      exact h.tuple x (hold x hx hxz) u us hu hus
  · by_cases hxz : x = z
    · subst hxz
      rw [Function.update_self] at hne ⊢
      exact (hz.resolve_left hne).2
    · rw [Function.update_of_ne hxz] at hne ⊢
      exact h.moved x (hold x hx hxz) hne
  · rintro M M' ⟨N, N', d, hN, rfl, rfl⟩
    exact ⟨(h.shares N N' hN).byZero, (h.shares N N' hN).fn⟩
  · rintro M M' ⟨N, N', d, hN, rfl, rfl⟩
    by_cases hxz : x = z
    · subst hxz
      simp
    · rw [Function.update_of_ne hxz, SmtModel.const_bind_of_ne _ _ hxz,
        SmtModel.const_bind_of_ne _ _ (hapart x hx hxz)]
      exact h.const x (hold x hx hxz) N N' hN
  · rintro M M' ⟨N, N', d, hN, rfl, rfl⟩
    rcases hz with rfl | ⟨hz, hz'⟩
    · by_cases hnz : n = z'
      · subst hnz
        simp
      · rw [SmtModel.const_bind_of_ne _ _ hnz, SmtModel.const_bind_of_ne _ _ hnz]
        exact h.fixed n hn N N' hN
    · have hnz : n ≠ z := fun heq => hz (heq ▸ hn)
      have hnz' : n ≠ z' := fun heq => hz' (heq ▸ hn)
      rw [SmtModel.const_bind_of_ne _ _ hnz, SmtModel.const_bind_of_ne _ _ hnz']
      exact h.fixed n hn N N' hN

/-- A binder that makes room for a free variable. It does so only for names that are not reserved. -/
theorem Renames.binder (h : Renames σ Γ env env' K (xs.erase z)) (hs : t.sortOf = .ok s) :
    Renames (Function.update σ z (binderName σ z xs)) Γ (env.bind z t)
      (env'.bind (binderName σ z xs) t) (BindBoth K z (binderName σ z xs)) xs := by
  refine h.bindBoth hs (fun x hx hne => binderName_ne hx hne) ?_
  rcases binderName_eq_or σ z xs with hz | ⟨⟨x, hx, hne, hxz⟩, k, hk⟩
  · exact .inl hz
  · have hmoved := h.moved x ((SortedSet.mem_erase _ _ _).mpr ⟨hx, hne⟩) (hxz ▸ Ne.symm hne)
    exact .inr ⟨hxz ▸ hmoved, hk ▸ Γ.not_reserves_primed z k⟩

/-! ### Types -/

theorem length_renameAll (vs : List Value) : (Value.renameAll σ vs).length = vs.length := by
  induction vs with
  | nil => rfl
  | cons v vs ih => simp [ih]

theorem elementType_rename (t : Ty) (shape : Shape) (i : Value) :
    t.elementType shape (i.rename σ) = t.elementType shape i := by
  unfold Ty.elementType
  rw [Value.constantIndex?_rename]

theorem EndAlike.ofEq {r r' : Except Fault α} (h : r = r') : EndAlike Eq r r' := by
  subst h
  cases r with
  | error e => exact .error e e
  | ok a => exact .ok rfl

theorem endAlike_place {p : Place} (h : Renames σ Γ env env' K p.freeVars) :
    EndAlike Eq (p.typeOf env.scope) ((p.rename σ).typeOf env'.scope) := by
  cases p with
  | name x o =>
    simp only [Place.typeOf, Place.rename, h.type x (by simp [Place.freeVars])]
    split
    · exact .ok rfl
    · exact .error _ _
  | wildcard o => exact .ofEq rfl
  | elem shape x i o =>
    simp only [Place.typeOf, Place.rename, h.type x (by simp [Place.freeVars]), elementType_rename]
    split
    · exact .ofEq rfl
    · exact .error _ _

mutual

theorem endAlike_typeOf : ∀ (v : Value), Renames σ Γ env env' K v.freeVars →
    EndAlike Eq (v.typeOf env.scope) ((v.rename σ).typeOf env'.scope)
  | .expr _ _, h | .formula _ _, h | .unit _, h | .array [] _, h | .missing, h => .ofEq rfl
  | .place p _, h => endAlike_place h
  | .tuple vs _, h => (endAlike_typesOf vs h).map fun _ _ heq => heq ▸ rfl
  | .array (v :: vs) _, h => by
    simp only [Value.rename, Value.renameAll, Value.typeOf, length_renameAll]
    exact (endAlike_typeOf v h.left).map fun _ _ heq => heq ▸ rfl
  | .call f _ o, h => by
    simp only [Value.rename, Value.typeOf, h.function, h.renamed]
    exact .ofEq rfl
  | .ref v _ _, h | .deref v _, h => (endAlike_typeOf v h).map fun _ _ heq => heq ▸ rfl
  | .ite _ v _ _, h => endAlike_typeOf v h.left.right
  | .select shape b i o, h => by
    simp only [Value.rename, Value.typeOf, elementType_rename]
    refine (endAlike_typeOf b h.left).bindEq fun t => ?_
    exact .ofEq rfl
  | .store _ b _ _ _, h => endAlike_typeOf b h.left.left

theorem endAlike_typesOf : ∀ (vs : List Value), Renames σ Γ env env' K (Value.freeVarsAll vs) →
    EndAlike Eq (Value.typesOf env.scope vs) (Value.typesOf env'.scope (Value.renameAll σ vs))
  | [], h => .ofEq rfl
  | v :: vs, h => by
    refine (endAlike_typeOf v h.left).bindEq fun t => ?_
    refine (endAlike_typesOf vs h.right).bindEq fun ts => ?_
    exact .ofEq rfl

end

theorem mirrors_typeOf (h : Renames σ Γ env env' K v.freeVars) :
    Mirrors (fun t t' => t = t' ∧ v.typeOf env.scope = .ok t) (lift (v.typeOf env.scope))
      (lift ((v.rename σ).typeOf env'.scope)) := by
  have hend := endAlike_typeOf v h
  generalize v.typeOf env.scope = r at hend ⊢
  generalize (v.rename σ).typeOf env'.scope = r' at hend ⊢
  refine mirrors_lift ?_
  cases hend with
  | ok heq => exact .ok ⟨heq, rfl⟩
  | error e e' => exact .error e e'

theorem mirrors_tupleType (h : Renames σ Γ env env' K v.freeVars) :
    Mirrors (fun ts ts' => ts = ts' ∧ ∃ t, v.typeOf env.scope = .ok t ∧ t.underlying = .tuple ts)
      (tupleType env v) (tupleType env' (v.rename σ)) := by
  refine (mirrors_typeOf h).bindEq fun t ht => ?_
  split
  · next ts hts => exact mirrors_pure ⟨rfl, t, ht, hts⟩
  · exact mirrors_fail

/-! ### Encodings that denote the same -/

/-- Whether two encodings have the same sort and denote the same. -/
structure Encoded.Mirrors (K : SmtModel → SmtModel → Prop) (r r' : Encoded) : Prop where
  sort : r.sort = r'.sort
  term : r.term.Mirrors K r'.term

/-- Whether two maps of terms have the same names, and terms that denote the same. -/
def PartsMirror (K : SmtModel → SmtModel → Prop) (p p' : NameMap Term) : Prop :=
  ∀ tag, Option.Rel (Term.Mirrors K) (p.get? tag) (p'.get? tag)

/-- Whether two encodings of tuples have the same element types and denote the same. -/
structure EncodedTuple.Mirrors (K : SmtModel → SmtModel → Prop) (r r' : EncodedTuple) : Prop where
  elements : r.elements = r'.elements
  parts : PartsMirror K r.parts r'.parts

/-- Whether two encodings of arguments have the same sorts and denote the same. -/
structure EncodedArgs.Mirrors (K : SmtModel → SmtModel → Prop) (r r' : EncodedArgs) : Prop where
  sorts : r.sorts = r'.sorts
  terms : List.Forall₂ (Term.Mirrors K) r.terms r'.terms

theorem PartsMirror.empty : PartsMirror K .empty .empty := fun _ => .none

theorem PartsMirror.insert (h : PartsMirror K p p') (tag : String) {t t' : Term} (ht : t.Mirrors K t') :
    PartsMirror K (p.insert tag t) (p'.insert tag t') := by
  intro tag'
  rw [NameMap.get?_insert, NameMap.get?_insert]
  split_ifs
  · exact .some ht
  · exact h tag'

theorem PartsMirror.getD (h : PartsMirror K p p') (tag : String) :
    ((p.get? tag).getD .absent).Mirrors K ((p'.get? tag).getD .absent) := by
  have htag := h tag
  generalize p.get? tag = r at htag ⊢
  generalize p'.get? tag = r' at htag ⊢
  cases htag with
  | some ht => exact ht
  | none => exact ⟨fun _ => rfl, fun _ _ _ => by simp⟩

theorem mirrors_requireSort {v' : Value} (h : r.Mirrors K r') :
    Mirrors (Encoded.Mirrors K) (requireSort v s r) (requireSort v' s r') := by
  unfold requireSort
  rw [h.sort]
  split
  · exact mirrors_pure h
  · exact mirrors_fail

theorem mirrors_requireInt (e : Expr) (h : r.Mirrors K r') :
    Mirrors (Encoded.Mirrors K) (requireInt e r) (requireInt (e.rename σ) r') := by
  cases e with
  | value v => exact mirrors_requireSort h
  | num n | op o a b => exact mirrors_pure h

theorem Renames.tupleConst (h : Renames σ Γ env env' K xs) {x : String} (hx : x ∈ xs.members) {ts : List Ty}
    (ht : env.scope.type? x = some t) (hts : t.underlying = .tuple ts) {u : Ty} (hu : u ∈ ts)
    (hs : u.sortOf = .ok s) : (Term.const (partName x s)).Mirrors K (.const (partName (σ x) s)) := by
  obtain ⟨hσ, hΓ⟩ := h.tuple x hx t ts ht hts
  refine ⟨fun _ => rfl, fun M M' hM => ?_⟩
  rw [hσ, Term.eval, Term.eval]
  exact h.fixed _ (.part hΓ hts hu hs) M M' hM

theorem mirrors_namedTuple {x y : String} : ∀ (ts : List Ty) {p p' : NameMap Term},
    (∀ u ∈ ts, ∀ s, u.sortOf = .ok s →
      (Term.const (partName x s)).Mirrors K (.const (partName y s))) → PartsMirror K p p' →
    Mirrors (PartsMirror K) (namedTuple env x p ts) (namedTuple env' y p' ts)
  | [], p, p', _, hp => mirrors_pure hp
  | t :: ts, p, p', hconst, hp => by
    refine (mirrors_orFail t.sortOf).bindEq fun s hs => ?_
    refine mirrors_declareConst.bind fun _ _ _ => ?_
    exact mirrors_namedTuple ts (fun u hu => hconst u (List.mem_cons_of_mem _ hu))
      (hp.insert _ (hconst t List.mem_cons_self s hs))

theorem mirrors_arrayElement (hK : ∀ M M', K M M' → M.Shares M') {array array' : Term}
    (ha : array.Mirrors K array') (e : Ty) (n : ℕ) (i i' : Value) {index index' : Encoded}
    (hi : index.Mirrors K index') :
    Mirrors (Encoded.Mirrors K) (arrayElement array e n i index) (arrayElement array' e n i' index') := by
  refine (mirrors_orFail e.sortOf).bindEq fun s _ => ?_
  exact mirrors_pure ⟨rfl, .app₂ hK _ ha hi.term⟩

theorem mirrors_tupleElement (hK : ∀ M M', K M M' → M.Shares M') (o : Origin) {r r' : EncodedTuple}
    (h : r.Mirrors K r') (i : Value) :
    Mirrors (Encoded.Mirrors K) (tupleElement o r i) (tupleElement o r' (i.rename σ)) := by
  unfold tupleElement
  rw [Value.constantIndex?_rename, h.elements]
  split
  · exact mirrors_fail
  · next n _ =>
    split
    · exact mirrors_fail
    · next e _ =>
      refine (mirrors_orFail e.sortOf).bindEq fun s _ => ?_
      exact mirrors_pure ⟨rfl, .app₂ hK _ (h.parts.getD _) ⟨fun _ => rfl, fun _ _ _ => by simp⟩⟩

theorem mirrors_callParts (h : Renames σ Γ env env' K xs) {f : String} {g : Function}
    (hg : Γ.function? f = some g) {as as' : EncodedArgs} (has : as.Mirrors K as') :
    ∀ (ss : List SmtSort) {p p' : NameMap Term}, PartsMirror K p p' →
      Mirrors (PartsMirror K) (callParts f as p ss) (callParts f as' p' ss)
  | [], p, p', hp => mirrors_pure hp
  | s :: ss, p, p', hp => by
    refine mirrors_declareFun.bind fun _ _ _ => ?_
    refine mirrors_callParts h hg has ss (hp.insert _ ?_)
    exact .app h.shares has.terms fun _ => h.fixed _ (.result s hg)

/-- A literal tuple after one more element. -/
theorem PartsMirror.literalPart (hK : ∀ M M', K M M' → M.Shares M') (hp : PartsMirror K p p') (i : ℕ)
    (h : r.Mirrors K r') : PartsMirror K (literalPart p i r) (literalPart p' i r') := by
  unfold Encoding.literalPart
  rw [← h.sort]
  refine hp.insert _ ?_
  have htag := hp r.sort.tag
  generalize p.get? r.sort.tag = a at htag ⊢
  generalize p'.get? r.sort.tag = a' at htag ⊢
  cases htag with
  | some ht => exact .app₃ hK _ ht ⟨fun _ => rfl, fun _ _ _ => by simp⟩ h.term
  | none => exact h.term.constArray _

theorem mirrors_orderTerm (hK : ∀ M M', K M M' → M.Shares M') (c : Comparison) (s : SmtSort)
    {a b a' b' : Term} (ha : a.Mirrors K a') (hb : b.Mirrors K b') :
    Option.Rel (Term.Mirrors K) (orderTerm c s a b) (orderTerm c s a' b') := by
  cases s with
  | int => exact .some (.app₂ hK _ ha hb)
  | array s => exact .none
  | bool =>
    cases c with
    | ge => exact .some (hb.implies hK ha)
    | le => exact .some (ha.implies hK hb)
    | gt => exact .some (.join hK _ _ ha (hb.not hK))
    | lt => exact .some (.join hK _ _ (ha.not hK) hb)

theorem quant_mirrors {z' : String} {t t' : Term} (h : t.Mirrors (BindBoth K z z') t') (q : Quantifier)
    (s : SmtSort) : (Term.quant q z s t).Mirrors K (.quant q z' s t') := by
  refine ⟨fun _ => rfl, fun M M' hM => ?_⟩
  have heq : ∀ d, t.eval (M.bind z d) = t'.eval (M'.bind z' d) := fun d =>
    h.eval _ _ ⟨M, M', d, hM, rfl, rfl⟩
  cases q <;> simp only [Term.eval, Datum.bool.injEq, decide_eq_decide, heq]

mutual

theorem mirrors_place (p : Place) {σ env env' K} (h : Renames σ Γ env env' K p.freeVars) :
    Mirrors (Encoded.Mirrors K) (place env p) (place env' (p.rename σ)) :=
  match p, h with
  | .name x o, h => by
    have hx : x ∈ (Place.name x o).freeVars.members := by simp [Place.freeVars]
    refine (mirrors_lookup (h.type x hx)).bindEq fun t _ => ?_
    split
    · refine mirrors_declareConst.bind fun _ _ _ => ?_
      exact mirrors_pure ⟨rfl, fun _ => rfl, fun M M' hM => by simpa using h.const x hx M M' hM⟩
    · exact mirrors_fail
  | .wildcard o, h => mirrors_fail
  | .elem .array x i o, h => by
    have hx : x ∈ (Place.elem .array x i o).freeVars.members := by simp [Place.freeVars]
    refine (mirrors_lookup (h.type x hx)).bindEq fun t _ => ?_
    split
    · refine (mirrors_orFail _).bind fun s s' hs => ?_
      refine mirrors_declareConst.bind fun _ _ _ => ?_
      refine (mirrors_value i h.right).bind fun r r' hr => ?_
      refine (mirrors_requireSort hr).bind fun r r' hr => ?_
      refine mirrors_arrayElement h.shares ?_ _ _ _ _ hr
      exact ⟨fun _ => rfl, fun M M' hM => by simpa using h.const x hx M M' hM⟩
    · exact mirrors_fail
  | .elem .tuple x i o, h => by
    have hx : x ∈ (Place.elem .tuple x i o).freeVars.members := by simp [Place.freeVars]
    refine (mirrors_lookup (h.type x hx)).bindEq fun t ht => ?_
    split
    · next ts hts =>
      refine (mirrors_namedTuple ts (fun u hu s hs => h.tupleConst hx ht hts hu hs) .empty).bind
        fun p p' hp => ?_
      have hr : EncodedTuple.Mirrors K ⟨[], p, ts⟩ ⟨[], p', ts⟩ := ⟨rfl, hp⟩
      exact mirrors_tupleElement h.shares _ hr i
    · exact mirrors_fail

theorem mirrors_value (v : Value) {σ env env' K} (h : Renames σ Γ env env' K v.freeVars) :
    Mirrors (Encoded.Mirrors K) (value env v) (value env' (v.rename σ)) :=
  match v, h with
  | .expr e o, h => (mirrors_expr e h).bind fun r r' hr => mirrors_requireInt e hr
  | .formula f o, h => mirrors_formula f h
  | .place p o, h => mirrors_place p h
  | .array [] o, h => mirrors_fail
  | .array (v :: vs) o, h => by
    refine (mirrors_value v h.left).bind fun r r' hr => ?_
    rw [← hr.sort]
    exact mirrors_elements vs h.right _ _ _ ⟨rfl, hr.term.constArray _⟩
  | .call f vs o, h => by
    simp only [Value.rename, value, h.function, h.renamed]
    split
    · exact mirrors_fail
    · next g hg =>
      split
      · exact mirrors_fail
      · refine (mirrors_args vs h).bind fun as as' has => ?_
        refine mirrors_declareFun.bind fun _ _ _ => ?_
        exact mirrors_pure ⟨rfl, .app h.shares has.terms fun _ => h.fixed _ (.function hg)⟩
  | .ref v m o, h | .deref v o, h => mirrors_value v h
  | .ite c v w o, h => by
    refine (mirrors_formula c h.left.left).bind fun rc rc' hc => ?_
    refine (mirrors_value v h.left.right).bind fun rv rv' hv => ?_
    refine (mirrors_value w h.right).bind fun rw rw' hw => ?_
    rw [← hv.sort, ← hw.sort]
    split
    · exact mirrors_pure ⟨rfl, .app₃ h.shares _ hc.term hv.term hw.term⟩
    · exact mirrors_fail
  | .select .tuple b i o, h =>
    (mirrors_tuple b h.left).bind fun r r' hr => mirrors_tupleElement h.shares _ hr i
  | .select .array b i o, h => by
    refine (mirrors_typeOf h.left).bindEq fun t _ => ?_
    split
    · refine (mirrors_value b h.left).bind fun rb rb' hb => ?_
      refine (mirrors_value i h.right).bind fun ri ri' hi => ?_
      refine (mirrors_requireSort hi).bind fun ri ri' hi => ?_
      refine (mirrors_arrayElement h.shares hb.term _ _ _ _ hi).bind fun r r' hr => ?_
      exact mirrors_pure ⟨hr.sort, hr.term⟩
    · exact mirrors_fail
  | .store .tuple b i e o, h => mirrors_fail
  | .store .array b i e o, h => by
    refine (mirrors_value b h.left.left).bind fun rb rb' hb => ?_
    refine (mirrors_value i h.left.right).bind fun ri ri' hi => ?_
    refine (mirrors_requireSort hi).bind fun ri ri' hi => ?_
    refine (mirrors_value e h.right).bind fun re re' he => ?_
    exact mirrors_pure ⟨hb.sort, .app₃ h.shares _ hb.term hi.term he.term⟩
  | .tuple vs o, h | .unit o, h | .missing, h => mirrors_fail

theorem mirrors_elements (vs : List Value) {σ env env' K} (h : Renames σ Γ env env' K (Value.freeVarsAll vs))
    (o : Origin) (s : SmtSort) (i : ℕ) {array array'} (ha : array.Mirrors K array') :
    Mirrors (Encoded.Mirrors K) (elements env o array s i vs) (elements env' o array' s i (Value.renameAll σ
    vs)) :=
  match vs, h with
  | [], h => mirrors_pure ha
  | v :: vs, h => by
    refine (mirrors_value v h.left).bind fun r r' hr => ?_
    rw [← hr.sort]
    split
    · refine mirrors_elements vs h.right o s _ ⟨ha.sort, ?_⟩
      exact .app₃ h.shares _ ha.term ⟨fun _ => rfl, fun _ _ _ => by simp⟩ hr.term
    · exact mirrors_fail

theorem mirrors_args (vs : List Value) {σ env env' K} (h : Renames σ Γ env env' K (Value.freeVarsAll vs)) :
    Mirrors (EncodedArgs.Mirrors K) (args env vs) (args env' (Value.renameAll σ vs)) :=
  match vs, h with
  | [], h => mirrors_pure ⟨rfl, .nil⟩
  | v :: vs, h => by
    refine (mirrors_typeOf h.left).bindEq fun t _ => ?_
    split
    · refine (mirrors_tuple v h.left).bind fun r r' hr => ?_
      refine (mirrors_args vs h.right).bind fun rs rs' hrs => ?_
      rw [← hr.elements]
      refine mirrors_pure ⟨by rw [hrs.sorts], List.rel_append ?_ hrs.terms⟩
      rw [List.forall₂_map_left_iff, List.forall₂_map_right_iff, List.forall₂_same]
      exact fun s _ => hr.parts.getD s.tag
    · refine (mirrors_value v h.left).bind fun r r' hr => ?_
      refine (mirrors_args vs h.right).bind fun rs rs' hrs => ?_
      exact mirrors_pure ⟨by rw [hr.sort, hrs.sorts], .cons hr.term hrs.terms⟩

theorem mirrors_tuple (v : Value) {σ env env' K} (h : Renames σ Γ env env' K v.freeVars) :
    Mirrors (EncodedTuple.Mirrors K) (tuple env v) (tuple env' (v.rename σ)) :=
  match v, h with
  | .place (.name x o) o', h => by
    have hx : x ∈ (Value.place (.name x o) o').freeVars.members := by
      simp [Value.freeVars, Place.freeVars]
    have htype := mirrors_tupleType h
    refine htype.bindEq fun ts hts => ?_
    obtain ⟨t, ht, hts⟩ := hts
    have ht' : env.scope.type? x = some t := by
      simp only [Value.typeOf, Place.typeOf] at ht
      split at ht
      · next u hu => rw [hu, Except.ok.inj ht]
      · cases ht
    refine (mirrors_namedTuple ts (fun u hu s hs => h.tupleConst hx ht' hts hu hs) .empty).bind
      fun p p' hp => ?_
    exact mirrors_pure ⟨rfl, hp⟩
  | .tuple vs o, h => by
    have htype := mirrors_tupleType h
    refine htype.bindEq fun ts _ => ?_
    refine (mirrors_literal vs h 0 [] [] .empty).bind fun r r' hr => ?_
    exact mirrors_pure ⟨rfl, hr⟩
  | .ref v m o, h | .deref v o, h => by
    have htype := mirrors_tupleType h
    exact htype.bind fun _ _ _ => mirrors_tuple v h
  | .ite c v w o, h => by
    have htype := mirrors_tupleType h
    refine htype.bindEq fun ts _ => ?_
    refine (mirrors_formula c h.left.left).bind fun rc rc' hc => ?_
    refine (mirrors_tuple v h.left.right).bind fun rv rv' hv => ?_
    refine (mirrors_tuple w h.right).bind fun rw rw' hw => ?_
    refine mirrors_pure ⟨rfl, fun tag => ?_⟩
    simp only [NameMap.get?_map]
    have htag := hv.parts tag
    generalize rv.parts.get? tag = a at htag ⊢
    generalize rv'.parts.get? tag = a' at htag ⊢
    cases htag with
    | some ht => exact .some (.app₃ h.shares _ hc.term ht (hw.parts.getD tag))
    | none => exact .none
  | .store s b i e o, h => by
    have htype := mirrors_tupleType h
    simp only [Value.rename, tuple, Value.constantIndex?_rename]
    refine htype.bindEq fun ts _ => ?_
    refine (mirrors_tuple b h.left.left).bind fun rb rb' hb => ?_
    split
    · exact mirrors_fail
    · refine (mirrors_value e h.right).bind fun r r' hr => ?_
      rw [← hr.sort]
      refine mirrors_pure ⟨rfl, hb.parts.insert _ ?_⟩
      exact .app₃ h.shares _ (hb.parts.getD _) ⟨fun _ => rfl, fun _ _ _ => by simp⟩ hr.term
  | .call f vs o, h => by
    have htype := mirrors_tupleType h
    refine htype.bindEq fun ts hts => ?_
    obtain ⟨t, ht, -⟩ := hts
    refine (mirrors_args vs h).bind fun as as' has => ?_
    rcases hg : env.scope.function? f with _ | g
    · simp [Value.typeOf, hg] at ht
    · refine (mirrors_callParts h ((h.function f).symm.trans hg) has _ .empty).bind fun p p' hp => ?_
      exact mirrors_pure ⟨rfl, hp⟩
  | .expr _ _, h | .formula _ _, h | .place (.wildcard _) _, h | .place (.elem _ _ _ _) _, h
  | .array _ _, h | .unit _, h | .select _ _ _ _, h | .missing, h => by
    have htype := mirrors_tupleType h
    exact htype.bind fun _ _ _ => mirrors_fail

theorem mirrors_literal (vs : List Value) {σ env env' K} (h : Renames σ Γ env env' K (Value.freeVarsAll vs))
    (i : ℕ) (cs cs' : List Check) {p p'} (hp : PartsMirror K p p') :
    Mirrors (fun r r' => PartsMirror K r.2 r'.2) (literal env cs p i vs) (literal env' cs' p' i
    (Value.renameAll σ vs)) :=
  match vs, h with
  | [], h => mirrors_pure hp
  | v :: vs, h => by
    refine (mirrors_value v h.left).bind fun r r' hr => ?_
    exact mirrors_literal vs h.right _ _ _ (hp.literalPart h.shares i hr)

theorem mirrors_expr (e : Expr) {σ env env' K} (h : Renames σ Γ env env' K e.freeVars) :
    Mirrors (Encoded.Mirrors K) (expr env e) (expr env' (e.rename σ)) :=
  match e, h with
  | .num n, h => mirrors_pure ⟨rfl, fun _ => rfl, fun _ _ _ => by simp⟩
  | .value v, h => mirrors_value v h
  | .op o a b, h => by
    refine (mirrors_expr a h.left).bind fun ra ra' ha => ?_
    refine (mirrors_requireInt a ha).bind fun ra ra' ha => ?_
    refine (mirrors_expr b h.right).bind fun rb rb' hb => ?_
    refine (mirrors_requireInt b hb).bind fun rb rb' hb => ?_
    exact mirrors_pure ⟨rfl, .app₂ h.shares _ ha.term hb.term⟩

theorem mirrors_formula (f : Formula) {σ env env' K} (h : Renames σ Γ env env' K f.freeVars) :
    Mirrors (Encoded.Mirrors K) (formula env f) (formula env' (f.rename σ)) :=
  match f, h with
  | .lit b, h => mirrors_pure ⟨rfl, .lit b⟩
  | .and f g, h | .or f g, h => by
    refine (mirrors_formula f h.left).bind fun rf rf' hf => ?_
    refine (mirrors_formula g h.right).bind fun rg rg' hg => ?_
    exact mirrors_pure ⟨rfl, .join h.shares _ _ hf.term hg.term⟩
  | .not f, h => by
    refine (mirrors_formula f h).bind fun r r' hr => ?_
    exact mirrors_pure ⟨rfl, hr.term.not h.shares⟩
  | .value v, h => (mirrors_value v h).bind fun r r' hr => mirrors_requireSort hr
  | .equal a b, h => by
    refine (mirrors_expr a h.left).bind fun ra ra' ha => ?_
    refine (mirrors_expr b h.right).bind fun rb rb' hb => ?_
    rw [← ha.sort, ← hb.sort]
    split
    · exact mirrors_pure ⟨rfl, .app₂ h.shares _ ha.term hb.term⟩
    · exact mirrors_fail
  | .compare c a b, h => by
    refine (mirrors_expr a h.left).bind fun ra ra' ha => ?_
    refine (mirrors_expr b h.right).bind fun rb rb' hb => ?_
    rw [← ha.sort, ← hb.sort]
    split
    · have horder := mirrors_orderTerm h.shares c ra.sort ha.term hb.term
      generalize orderTerm c ra.sort ra.term rb.term = o at horder ⊢
      generalize orderTerm c ra.sort ra'.term rb'.term = o' at horder ⊢
      cases horder with
      | some ht => exact mirrors_pure ⟨rfl, ht⟩
      | none => exact mirrors_fail
    · exact mirrors_fail
  | .quant q z t f, h => by
    refine (mirrors_orFail t.sortOf).bindEq fun s hs => ?_
    refine (mirrors_formula f (h.binder hs)).bind fun r r' hr => ?_
    exact mirrors_pure ⟨rfl, quant_mirrors hr.term q s⟩

end

/-- A quantified formula has an encoding if it has one with another name for its variable, and they
denote the same in every model, unless one of the names is reserved. -/
theorem mirrors_renameVar (env : Env) (q : Quantifier) {x y : String} (t : Ty) (f : Formula)
    (hx : ¬ env.scope.Reserves x) (hy : ¬ env.scope.Reserves y)
    (hfree : y ∈ f.freeVars.members → y = x) :
    Mirrors (fun r r' => ∀ M, r.term.eval M = r'.term.eval M) (formula env (.quant q x t f))
      (formula env (.quant q y t (f.renameVar x y))) := by
  refine (mirrors_orFail t.sortOf).bindEq fun s hs => ?_
  have hsame : Renames id env.scope env env Eq (f.freeVars.erase x) :=
    ⟨fun _ _ => rfl, fun _ => rfl, fun _ => rfl, fun _ _ _ _ ht _ => ⟨rfl, ht⟩,
      fun _ _ hne => absurd rfl hne, fun M M' h => h ▸ ⟨rfl, rfl⟩, fun _ _ M M' h => h ▸ rfl,
      fun _ _ M M' h => h ▸ rfl⟩
  have hbind := hsame.bindBoth hs (fun z hz hne heq => hne (heq.trans (hfree (heq ▸ hz))))
    (.inr ⟨hx, hy⟩)
  refine (mirrors_formula f hbind).bind fun r r' hr => ?_
  exact mirrors_pure fun M => (quant_mirrors hr.term q s).eval M M rfl

theorem Mirrors.yields {α β : Type} {P : α → β → Prop} {m m'} (h : Mirrors P m m') {a : α}
    (ha : Yields m a) : ∃ b, Yields m' b ∧ P a b := by
  obtain ⟨d, d₁, ha⟩ := ha
  have hend := h d d
  rw [ha] at hend
  rcases hb : m'.run.run d with ⟨e | b, d₁'⟩ <;> rw [hb] at hend <;> cases hend
  exact ⟨b, ⟨d, d₁', hb⟩, ‹_›⟩

def firstOfTuple : Expr := .value (.place (.elem .tuple "t" (.int 0) none) none)

def tupleScope : Scope := ⟨.ofList [("t", .tuple [.i32, .i32])], []⟩

/-- `forall y: i32. t.0 == x + y`, where `x` gets the name of the binder. -/
def shadowing : Formula :=
  .quant .all "y" .i32 (.equal firstOfTuple (.op .add (.value (.var "x")) (.value (.var "y"))))

theorem mirrors_renameVar_shadowing : ∃ r r',
    Yields (formula (.ofScope tupleScope) (.quant .all "x" .i32 shadowing)) r ∧
    Yields (formula (.ofScope tupleScope) (.quant .all "y" .i32 (shadowing.renameVar "x" "y"))) r' ∧
      ∀ M, r.term.eval M = r'.term.eval M := by
  have hr : Yields (formula (.ofScope tupleScope) (.quant .all "x" .i32 shadowing))
      ⟨[], .quant .all "x" .int (.quant .all "y" .int (.eq (.select (.const "t'Int") (.int 0))
        (.app "+" [.const "x", .const "y"]))), .bool⟩ :=
    ⟨⟨.empty, .empty⟩, ⟨.ofList [("t'Int", .array .int)], .empty⟩, by cbv⟩
  have hmirrors := mirrors_renameVar (.ofScope tupleScope) .all (x := "x") (y := "y") .i32 shadowing
    (fun h => absurd h.prime_mem (by decide)) (fun h => absurd h.prime_mem (by decide)) (by decide +kernel)
  obtain ⟨r', hr', heq⟩ := hmirrors.yields hr
  exact ⟨_, r', hr, hr', heq⟩

/-- `t.0 == t'Int[0]`. -/
def capturing : Formula :=
  .equal firstOfTuple (.value (.place (.elem .array "t'Int" (.int 0) none) none))

/-- A function that asserts `capturing` for all arrays `t'Int`. -/
def capturingFunction : Function where
  name := "f"
  inputs := [⟨"t", .tuple [.i32, .i32], false, none⟩]
  output := .unit
  precondition := .lit true
  postcondition := .lit true
  result := .unit none
  body := [.assert (.quant .all "t'Int" (.array .i32 2) capturing) none]
  origin := none

/-- A binder may have the name of a part of a tuple, which it captures: the formula is encoded as one
that is true in every model, and with another name for its variable as one that is false in every
model. -/
theorem captures_part : Program.validate ⟨[capturingFunction]⟩ = [] ∧ ∃ r r',
    Yields (formula (.ofScope tupleScope) (.quant .all "t'Int" (.array .i32 2) capturing)) r ∧
    Yields (formula (.ofScope tupleScope)
      (.quant .all "y" (.array .i32 2) (capturing.renameVar "t'Int" "y"))) r' ∧
      ∀ M, r.term.Holds M ∧ ¬ r'.term.Holds M := by
  refine ⟨by cbv, ⟨[], .quant .all "t'Int" (.array .int) (.eq (.select (.const "t'Int") (.int 0))
      (.select (.const "t'Int") (.int 0))), .bool⟩,
    ⟨[], .quant .all "y" (.array .int) (.eq (.select (.const "t'Int") (.int 0))
      (.select (.const "y") (.int 0))), .bool⟩, ⟨⟨.empty, .empty⟩, ⟨.empty, .empty⟩, by cbv⟩,
    ⟨⟨.empty, .empty⟩, ⟨.ofList [("t'Int", .array .int)], .empty⟩, by cbv⟩, fun M => ⟨?_, ?_⟩⟩
  · exact Term.holds_all.mpr fun d _ => (Term.Decides.eq _ _).holds_iff.mpr rfl
  · obtain ⟨n, hn⟩ : ∃ n, (M.const "t'Int").get 0 ≠ .int n := by
      by_cases h : (M.const "t'Int").get 0 = .int 0
      · exact ⟨1, by simp [h]⟩
      · exact ⟨0, h⟩
    intro h
    have hbody := Term.holds_all.mp h (.array fun _ => .int n) ⟨_, rfl, fun _ => ⟨n, rfl⟩⟩
    have heq := (Term.Decides.eq _ _).holds_iff.mp hbody
    rw [Term.eval_select, Term.eval_select, Term.eval, Term.eval, SmtModel.const_bind_self,
      SmtModel.const_bind_of_ne _ _ (by decide)] at heq
    exact hn (by simpa [Datum.toInt, Datum.get] using heq)

end Encoding

end Verdict
