import Verdict.Proofs.Closedness
import Verdict.Proofs.SortChecks

/-! # Well-sorted queries of programs

Generation encodes all nodes of a function before it uses them, so that most ill-sorted nodes are
reported. It takes on trust that a value fits what it is bound or assigned to (`Value.Suits`), that a
value of the unit type is well-sorted, and that the contracts of callees are.

Where this trust is deserved no ill-sorted term reaches the solver: the queries for all obligations of a
function can be made, are well-sorted and can be written down (`Program.queries_wellSorted`). Where it is
not, some do (`Program.exists_illSorted`). The discipline behind it asks for the trust, and promises that
symbolic values have the kinds of their types. -/

namespace Verdict

open Encoding (IsPlain)

/-! ### Trust -/

/-- Whether what is taken on trust about a value that is evaluated holds. A value of the unit type is not
even encoded. -/
def Value.Trusted (Γ : Scope) (v : Value) : Prop :=
  v.Conforms Γ ∧ ∀ t, v.typeOf Γ = .ok t → t.underlying = .unit → v.HasKind Γ .unit

/-- Whether a value is rightly trusted to fit a type. -/
def Value.Suits (Γ : Scope) (t : Ty) (v : Value) : Prop :=
  v.Trusted Γ ∧ ∀ k, v.HasKind Γ k → t.IsKind k

/-- Whether a value is rightly trusted to fit the place that it is assigned to. An element that is
assigned to is evaluated like a value. -/
def Assignment.Trusted (Γ : Scope) (a : Assignment) : Prop :=
  (Value.place a.target none).Trusted Γ ∧ a.value.Trusted Γ ∧
    ∀ t k, a.target.typeOf Γ = .ok t → a.value.HasKind Γ k → t.IsKind k

/-- Whether the elements of a tuple are rightly trusted to fit the variables that they are bound to. The
positions are words. -/
def Declaration.Trusted (Γ : Scope) (v : Value) (ds : List Declaration) : Prop :=
  ds.length ≤ 2 ^ 31 ∧ ∀ ss, v.HasKind Γ (.tuple ss) → ∀ (i : ℕ) (d : Declaration) (s : SmtSort),
    ds[i]? = some d → d.name ≠ "_" → ss[i]? = some s → d.type.IsKind (.scalar s)

mutual

/-- Whether what is taken on trust about a command in an environment holds. -/
def Command.Trusted (e : Scoping.Env) : Command → Prop
  | .declare _ | .noop _ => True
  | .bind d v => v.Suits e.scope d.type
  | .bindTuple ds v _ => v.Trusted e.scope ∧ Declaration.Trusted e.scope v ds
  | .assign a => a.Trusted e.scope
  | .assignAll as _ => ∀ a ∈ as, a.Trusted e.scope
  | .assert f _ | .assume f _ | .invariant f _ => f.Conforms e.scope
  | .cond bs _ => bs.Trusted e
  | .forRange i lo hi inv body _ =>
    lo.Suits e.scope .i32 ∧ hi.Suits e.scope .i32 ∧
      inv.Conforms (Scoping.declare e i .i32 false).scope ∧
      Command.AllTrusted (Scoping.declare e i .i32 false) body
  | .whileLoop c inv variant body _ =>
    c.Conforms e.scope ∧ inv.Conforms e.scope ∧ (∀ a ∈ variant, a.toValue.Suits e.scope .i32) ∧
      Command.AllTrusted e body

/-- Whether what is taken on trust about a cascade of conditions holds. -/
def Branches.Trusted (e : Scoping.Env) : Branches → Prop
  | .otherwise b => Command.AllTrusted e b
  | .branch c b rest => c.Conforms e.scope ∧ Command.AllTrusted e b ∧ rest.Trusted e

def Command.AllTrusted (e : Scoping.Env) : List Command → Prop
  | [] => True
  | c :: cs => c.Trusted e ∧ Command.AllTrusted (Scoping.command e c).1 cs

end

/-- Whether what is taken on trust about a function holds. -/
structure Function.Trusted (functions : List Function) (f : Function) : Prop where
  precondition : f.precondition.Conforms (f.inputEnv functions).scope
  body : Command.AllTrusted (f.entryEnv functions) f.body
  result : f.result.Suits (f.exitEnv functions).scope f.output
  postcondition : f.postcondition.Conforms (f.postEnv functions).scope

/-- Whether the contract of a function is well-sorted. -/
structure Function.SortedContract (functions : List Function) (f : Function) : Prop where
  precondition : f.precondition.IsSorted (f.inputEnv functions).scope
  postcondition : f.postcondition.IsSorted (f.postEnv functions).scope

/-! ### Environments with plain names -/

theorem Encoding.isPlain_oldName (x : String) : IsPlain (oldName x) := by
  constructor
  · intro y s h
    have h' := congrArg String.toList h
    simp only [oldName, partName, String.toList_append, List.append_assoc] at h'
    have htag := (append_cons_inj_of_last (by decide) (prime_not_mem_tag s) h').2
    exact tag_ne (by decide) (by decide) (by decide) htag
  · intro f h
    have h' := congrArg String.toList h
    simp only [oldName, functionName, String.toList_append] at h'
    have hlast := (append_cons_inj_of_last (p := '\'') (b := "old".toList) (d := "fn".toList)
      (by decide) (by decide) h').2
    revert hlast
    decide

variable {t : Ty} {x : String} {ds : List Declaration} {v : Value}

namespace Scoping

/-- Whether an environment has the functions of a program, and its variables have plain names. -/
structure Env.Hosts (functions : List Function) (e : Env) : Prop where
  functions : e.functions = functions
  plain : e.scope.Plain

namespace Env.Hosts

variable {functions : List Function} {e : Env}

theorem add (h : e.Hosts functions) (hx : IsPlain x) (t : Ty) (m : Bool) :
    (e.add x t m).Hosts functions := by
  refine ⟨h.functions, fun y u hy => ?_⟩
  change (e.add x t m).scope.vars.get? y = some u at hy
  rw [Env.type?_scope, Env.get?_add] at hy
  split_ifs at hy with hxy
  · exact hxy ▸ hx
  · exact h.plain y u ((Env.type?_scope e y).trans hy)

theorem declare (h : e.Hosts functions) {o : Origin} (hx : declareFaults e o x t = []) (m : Bool) :
    (Scoping.declare e x t m).Hosts functions := by
  unfold Scoping.declare
  split_ifs with hwild
  · exact h
  · have hname := not_quote_mem_of_isReserved (of_declareFaults hx hwild).1
    exact h.add (Encoding.isPlain_of_not_mem hname) t m

theorem declareAll (h : e.Hosts functions) {o : Origin} (hds : (Scoping.declareAll o e ds).2 = []) :
    (Scoping.declareAll o e ds).1.Hosts functions := by
  induction ds generalizing e with
  | nil => exact h
  | cons d ds ih =>
    simp only [Scoping.declareAll, List.append_eq_nil_iff] at hds
    exact ih (h.declare hds.1 d.mutable) hds.2

theorem command (h : e.Hosts functions) {c : Command} (hc : (Scoping.command e c).2 = []) :
    (Scoping.command e c).1.Hosts functions := by
  cases c with
  | declare d => exact h.declare hc d.mutable
  | bind d v =>
    simp only [Scoping.command, List.append_eq_nil_iff] at hc
    exact h.declare hc.2 d.mutable
  | bindTuple ds v o =>
    simp only [Scoping.command, List.append_eq_nil_iff] at hc
    exact h.declareAll hc.2
  | _ => exact h

theorem block (h : e.Hosts functions) {cs : List Command} (hcs : (Scoping.block e cs).2 = []) :
    (Scoping.block e cs).1.Hosts functions := by
  induction cs generalizing e with
  | nil => exact h
  | cons c cs ih =>
    obtain ⟨hc, hrest⟩ := block_cons hcs
    exact ih (h.command hc) hrest

end Env.Hosts

variable {functions : List Function} {f : Function}

theorem hosts_inputEnv (hd : Declares ⟨.empty, functions⟩ f.inputs) :
    (f.inputEnv functions).Hosts functions := by
  have hall : ∀ (ds : List Declaration) {e : Env}, e.Hosts functions → Declares e ds →
      (ds.foldl (fun e d => declare e d.name d.type d.mutable) e).Hosts functions := by
    intro ds
    induction ds with
    | nil => exact fun h _ => h
    | cons d ds ih => exact fun h hds => ih (h.declare hds.1 d.mutable) hds.2
  exact hall f.inputs ⟨rfl, fun x t hx => nomatch hx⟩ hd

theorem hosts_entryEnv (hd : Declares ⟨.empty, functions⟩ f.inputs) :
    (f.entryEnv functions).Hosts functions := by
  have hall : ∀ (ds : List Declaration) {e : Env}, e.Hosts functions →
      (ds.foldl (fun (e : Env) d => e.add (oldName d.name) d.type false) e).Hosts functions := by
    intro ds
    induction ds with
    | nil => exact fun h => h
    | cons d ds ih => exact fun h => ih (h.add (Encoding.isPlain_oldName d.name) d.type false)
  exact hall f.inputs (hosts_inputEnv hd)

/-- All environments of a function that obeys the rules have plain names. -/
theorem hosts_of_function (h : function functions f = []) :
    (f.inputEnv functions).Hosts functions ∧ (f.entryEnv functions).Hosts functions ∧
      (f.exitEnv functions).Hosts functions ∧ (f.postEnv functions).Hosts functions := by
  obtain ⟨hd, -, hblock⟩ := of_function h
  have hentry := hosts_entryEnv hd
  have hexit : (f.exitEnv functions).Hosts functions := hentry.block hblock
  have hresult : IsPlain resultName := Encoding.isPlain_of_not_mem (by decide)
  exact ⟨hosts_inputEnv hd, hentry, hexit, hexit.add hresult f.output false⟩

/-- A scope around an environment says the same of all that obeys the rules. -/
theorem Env.Within.sameOn {e : Env} {Γ : Scope} (h : e.Within Γ) {xs : Names} (hxs : xs.In e.Knows) :
    Γ.SameOn e.scope xs := by
  refine ⟨fun x hx => ?_, fun f => ?_⟩
  · obtain ⟨t, ht⟩ := (hxs x hx).type?
    rw [h.types x t ht]
    exact ht.symm
  · simp only [Scope.function?, h.functions]
    rfl

end Scoping

/-! ### Nodes that are encoded -/

namespace Encoding

variable {Γ Δ : Scope} {binders : NameMap SmtSort} {env : Env} {d : Declarations}

/-- A value whose side conditions are known is well-sorted. -/
theorem hasKind_of_valueChecks {cs : List Check} (h : Generation.RunChecks env v cs)
    (hv : v.Trusted Δ) (hΔ : env.scope.SameOn Δ v.freeVars) : ∃ k, v.HasKind Δ k := by
  cases h with
  | unit ht hunit => exact ⟨.unit, hv.2 _ ((v.typeOf_congr hΔ).symm.trans ht) hunit⟩
  | tuple _ _ hr =>
    obtain ⟨ss, hss⟩ := sorts_tuple hr hv.1 hΔ
    exact ⟨.tuple ss, hss⟩
  | value _ _ hr => exact ⟨_, sorts_value hr hv.1 hΔ⟩

/-- The side conditions of a well-sorted value are well-sorted. -/
theorem encodes_valueChecks (hΓ : Γ.Plain) (he : env.Sees Γ Δ binders) {k : Kind}
    (hv : v.HasKind Δ k) :
    Succeeds Γ d (Generation.valueChecks env v) fun cs _ => ChecksSorted Δ cs := by
  obtain ⟨t, ht, hk⟩ := (hv.extend v (he.agreesOn _)).typeOf v
  refine after_lift ht ?_
  cases k with
  | unit =>
    have hunit : t.underlying = .unit := hk
    rw [hunit]
    exact succeeds_pure checksSorted_nil
  | tuple ss =>
    obtain ⟨ts, hts, -⟩ := hk
    rw [hts]
    exact (encodes_tuple hΓ v he hv).bind fun r d₁ _ hr => succeeds_pure hr.checks
  | scalar s =>
    split
    · next hunit => exact absurd hk (Ty.sortOf_of_underlying_unit hunit s)
    · next ts hts => exact absurd hk (Ty.sortOf_of_underlying_tuple hts s)
    · exact (encodes_value hΓ v he hv).bind fun r d₁ _ hr => succeeds_pure hr.checks

/-- What holds of all results of an encoding holds of its result. -/
theorem Succeeds.of_run {α : Type} {m : EncodeM α} {Q : α → Declarations → Prop} {a : α}
    (h : Succeeds Γ default m Q) (hrun : (m.run.run default).1 = .ok a) : ∃ d, Q a d := by
  obtain ⟨b, d, hb, -, -, hQ⟩ := h (Declarations.agrees_default Γ)
  rw [hb] at hrun
  obtain rfl := Except.ok.inj hrun
  exact ⟨d, hQ⟩

theorem Env.Sees.ofWithin {e : Scoping.Env} (h : e.Within Γ) (he : e.scope.Plain) :
    (Env.ofScope Γ).Sees e.scope e.scope .empty := by
  refine ⟨h.types, fun f => ?_, fun _ => rfl, he, fun _ hx => absurd hx List.not_mem_nil,
    fun _ _ => ⟨rfl, rfl⟩⟩
  change Γ.function? f = e.scope.function? f
  simp only [Scope.function?, h.functions]
  rfl

end Encoding

/-- Whether a node is well-sorted. -/
def Node.IsSorted (Γ : Scope) : Node → Prop
  | .value v => ∃ k, v.HasKind Γ k
  | .expr a => ∃ s, a.HasSort Γ s
  | .formula f => f.IsSorted Γ
  | .place p => ∃ k, p.HasKind Γ k
  | .command _ => True

theorem Value.HaveKinds.nodes {Γ : Scope} : ∀ {vs : List Value} {ks : List Kind},
    Value.HaveKinds Γ vs ks → ∀ m ∈ vs.map Node.value, m.IsSorted Γ
  | [], _, _ => List.forall_mem_nil _
  | v :: vs, _, h => by
    obtain ⟨k, ks, rfl, hv, hvs⟩ := h
    exact List.forall_mem_cons.mpr ⟨⟨k, hv⟩, hvs.nodes⟩

/-- Parts of nodes are well-sorted as the nodes are. -/
theorem Node.IsSorted.parts {Γ : Scope} : ∀ n : Node, n.IsSorted Γ →
    Frame.outsideQuantifiers n = true → ∀ m ∈ n.parts, m.IsSorted Γ
  | .place (.name _ _), _, _ | .place (.wildcard _), _, _ | .value (.unit _), _, _ | .value .missing, _, _
  | .expr (.num _), _, _ | .formula (.lit _), _, _ | .command _, _, _ => List.forall_mem_nil _
  | .place (.elem .array _ i _), h, _ => by
    obtain ⟨_, s, rfl, -, hi⟩ := h
    exact List.forall_mem_singleton.mpr ⟨_, hi⟩
  | .place (.elem .tuple _ i _), h, _ => by
    obtain ⟨_, ss, n, s, rfl, -, hn, -⟩ := h
    exact List.forall_mem_singleton.mpr ⟨_, Value.hasKind_of_constantIndex hn⟩
  | .value (.expr a _), h, _ => by
    obtain ⟨_, rfl, ha⟩ := h
    exact List.forall_mem_singleton.mpr ⟨_, ha⟩
  | .value (.formula f _), h, _ => by
    obtain ⟨_, rfl, hf⟩ := h
    exact List.forall_mem_singleton.mpr hf
  | .value (.place _ _), h, _ | .value (.ref _ _ _), h, _ | .value (.deref _ _), h, _
  | .formula (.not f), h, _ => List.forall_mem_singleton.mpr h
  | .value (.tuple vs _), h, _ => by
    obtain ⟨_, ss, rfl, hvs⟩ := h
    exact hvs.nodes
  | .value (.array vs _), h, _ => by
    obtain ⟨_, s, rfl, -, hvs⟩ := h
    exact hvs.nodes
  | .value (.call f vs _), h, _ => by
    obtain ⟨_, g, ks, -, -, hvs⟩ := h
    exact hvs.nodes
  | .value (.ite c v w _), h, _ => by
    obtain ⟨k, hc, hv, hw⟩ := h
    simp only [Node.parts, List.forall_mem_cons]
    exact ⟨hc, ⟨k, hv⟩, ⟨k, hw⟩, List.forall_mem_nil _⟩
  | .value (.select .array b i _), h, _ => by
    obtain ⟨_, s, rfl, hb, hi⟩ := h
    exact List.forall_mem_cons.mpr ⟨⟨_, hb⟩, List.forall_mem_singleton.mpr ⟨_, hi⟩⟩
  | .value (.select .tuple b i _), h, _ => by
    obtain ⟨_, ss, n, s, rfl, hb, hn, -⟩ := h
    have hi := Value.hasKind_of_constantIndex (Γ := Γ) hn
    exact List.forall_mem_cons.mpr ⟨⟨_, hb⟩, List.forall_mem_singleton.mpr ⟨_, hi⟩⟩
  | .value (.store .array b i v _), h, _ => by
    obtain ⟨_, s, rfl, hb, hi, hv⟩ := h
    simp only [Node.parts, List.forall_mem_cons]
    exact ⟨⟨_, hb⟩, ⟨_, hi⟩, ⟨_, hv⟩, List.forall_mem_nil _⟩
  | .value (.store .tuple b i v _), h, _ => by
    obtain ⟨_, ss, n, s, rfl, hb, hn, -, hv⟩ := h
    simp only [Node.parts, List.forall_mem_cons]
    exact ⟨⟨_, hb⟩, ⟨_, Value.hasKind_of_constantIndex hn⟩, ⟨_, hv⟩, List.forall_mem_nil _⟩
  | .expr (.value v), h, _ => by
    obtain ⟨s, hv⟩ := h
    exact List.forall_mem_singleton.mpr ⟨_, hv⟩
  | .formula (.value v), h, _ => List.forall_mem_singleton.mpr ⟨_, h⟩
  | .expr (.op _ a b), h, _ | .formula (.compare _ a b), h, _ => by
    obtain ⟨s, -, ha, hb⟩ := h
    exact List.forall_mem_cons.mpr ⟨⟨_, ha⟩, List.forall_mem_singleton.mpr ⟨_, hb⟩⟩
  | .formula (.equal a b), h, _ => by
    obtain ⟨s, ha, hb⟩ := h
    exact List.forall_mem_cons.mpr ⟨⟨_, ha⟩, List.forall_mem_singleton.mpr ⟨_, hb⟩⟩
  | .formula (.and f g), h, _ | .formula (.or f g), h, _ =>
    List.forall_mem_cons.mpr ⟨h.1, List.forall_mem_singleton.mpr h.2⟩
  | .formula (.quant _ _ _ _), _, henter => nomatch henter

/-! ### The discipline -/

namespace Generation

open Scoping

variable {functions : List Function} {e : Env} {m : NameMap Ty} {σ : Substitution}

/-- Whether a value has the kind of a type, if that has one. -/
def KeepsKind (functions : List Function) (m : NameMap Ty) (t : Ty) (v : Value) : Prop :=
  ∀ k, t.IsKind k → v.HasKind ⟨m, functions⟩ k

theorem agreesOn_of_under {m' : NameMap Ty} (h : m.Under m') (xs : Names) :
    (⟨m, functions⟩ : Scope).AgreesOn ⟨m', functions⟩ xs :=
  ⟨fun x _ _ hk => hk.imp fun t ht => ⟨h x t ht.1, ht.2⟩, fun _ _ => id⟩

theorem keepsKinds_of_carries (he : e.functions = functions) {xs : Names} {K : String → Prop}
    (hK : ∀ x ∈ xs.members, K x) (h : σ.Carries (KeepsKind functions m) e K) :
    σ.KeepsKinds e.scope ⟨m, functions⟩ xs := by
  refine ⟨fun x hx k hk => ?_, fun f g hg => he ▸ hg⟩
  obtain ⟨t, ht, hkind⟩ := hk
  obtain ⟨v, hv, hkeeps⟩ := h x (hK x hx) t ht
  rw [Substitution.image, hv]
  exact hkeeps k hkind

variable {vs : List Value} {o : Origin} {k : Kind}

/-- What is known of a call that is well-sorted. -/
theorem of_hasKind_call (he : e.functions = functions) {name : String} {callee : Function}
    (h : (Value.call name vs o).HasKind e.scope k)
    (hcallee : (functions.find? fun f => f.name == name) = some callee) :
    ∃ ks, callee.Takes ks k ∧ Value.HaveKinds e.scope vs ks := by
  obtain ⟨g, ks, hg, hks, hvs⟩ := h
  have hfind : (functions.find? fun f => f.name == name) = some g := he ▸ hg
  obtain rfl := Option.mem_unique hcallee hfind
  exact ⟨ks, hks, hvs⟩

theorem calls_of_isSorted (he : e.Hosts functions) {ns : List Node}
    (hns : ∀ n ∈ ns, n.IsSorted e.scope) :
    CallsHave functions (fun t v => e.Hosts functions ∧ ∃ k, t.IsKind k ∧ v.HasKind e.scope k)
      (ns.filterMap call?) := by
  intro c hc callee hcallee
  obtain ⟨n, hn, hc⟩ := List.mem_filterMap.mp hc
  unfold call? at hc
  split at hc
  · obtain rfl := Option.some_inj.mp hc
    obtain ⟨k, hk⟩ := hns _ hn
    obtain ⟨ks, htakes, -⟩ := of_hasKind_call he.functions hk hcallee
    exact ⟨he, k, htakes.output, hk⟩
  · cases hc

theorem forall₂_kinds {ts : List Ty} {ks : List Kind} (h : List.Forall₂ Ty.IsKind ts ks)
    (hvs : Value.HaveKinds e.scope vs ks) :
    List.Forall₂ (fun t v => ∃ k, t.IsKind k ∧ v.HasKind e.scope k) ts vs := by
  replace hvs := hvs.forall₂
  induction h generalizing vs with
  | nil =>
    cases hvs
    exact .nil
  | cons ht _ ih =>
    obtain _ | ⟨hv, hvs⟩ := hvs
    exact .cons ⟨_, ht, hv⟩ (ih hvs)

theorem haveKinds_of_keeps {ts : List Ty} {ks : List Kind} (h : List.Forall₂ Ty.IsKind ts ks)
    (hvs : List.Forall₂ (KeepsKind functions m) ts vs) : Value.HaveKinds ⟨m, functions⟩ vs ks := by
  induction h generalizing vs with
  | nil =>
    cases hvs
    rfl
  | cons ht _ ih =>
    obtain _ | ⟨hv, hvs⟩ := hvs
    exact ⟨_, _, rfl, hv _ ht, ih hvs⟩

theorem keepsKind_update {shape : Shape} {i : Value} {u : Ty} {b w : Value}
    (he : e.functions = functions) (ht : t.IsKind k)
    (hplace : (Value.place (.elem shape x i o) none).HasKind e.scope k)
    (hx : e.scope.vars.get? x = some u)
    (hσ : σ.Carries (KeepsKind functions m) e (· ∈ i.freeVars.members))
    (hb : KeepsKind functions m u b) (hw : KeepsKind functions m t w) :
    KeepsKind functions m u (.update shape b (i.substNonempty σ) w) := by
  intro k' hk'
  cases shape with
  | array =>
    obtain ⟨s, rfl, ⟨u', hu', hkind⟩, hi⟩ := hplace
    obtain rfl := Option.mem_unique hu' hx
    obtain rfl := hkind.unique hk'
    have hindex := hi.substNonempty i (keepsKinds_of_carries he (fun _ => id) hσ)
    exact (hb _ hkind).update_array hindex (hw _ ht)
  | tuple =>
    obtain ⟨ss, n, s, rfl, ⟨u', hu', hkind⟩, hn, hs⟩ := hplace
    obtain rfl := Option.mem_unique hu' hx
    obtain rfl := hkind.unique hk'
    exact (hb _ hkind).update_tuple (Value.constantIndex?_subst σ hn) hs (hw _ ht)

/-- Nodes obey the scoping rules and deserve the trust in them. What is made of them is well-sorted, as
the types of variables say. -/
def sortedness (functions : List Function) : Discipline functions where
  asksValue e t v := e.Hosts functions ∧ readsValue e v = [] ∧ v.Suits e.scope t
  asksFormula e f := e.Hosts functions ∧ readsFormula e f = [] ∧ f.Conforms e.scope
  hasValue e t v := e.Hosts functions ∧ ∃ k, t.IsKind k ∧ v.HasKind e.scope k
  hasFormula e f := e.Hosts functions ∧ f.IsSorted e.scope
  written := False
  keepsValue := KeepsKind functions
  keepsFormula m f := f.IsSorted ⟨m, functions⟩
  keepsExpr m a := a.HasSort ⟨m, functions⟩ .int
  growValue h hv k hk := (hv k hk).extend _ (agreesOn_of_under h _)
  growFormula h hf := hf.extend _ (agreesOn_of_under h _)
  growExpr h ha := ha.extend _ (agreesOn_of_under h _)
  passValue h hΓ hcs := by
    obtain ⟨he, hreads, htrust, hfits⟩ := h
    obtain ⟨k, hk⟩ := Encoding.hasKind_of_valueChecks (runs_valueChecks (ran_of_run hcs)) htrust
      (hΓ.sameOn (in_of_readsValue _ hreads))
    exact ⟨he, k, hfits k hk, hk⟩
  passFormula h hΓ hr := by
    obtain ⟨he, hreads, htrust⟩ := h
    exact ⟨he, Encoding.sorts_formula (Encoding.runs_formula (ran_of_run hr)) htrust
      (hΓ.sameOn (in_of_readsFormula _ hreads))⟩
  valueChecks h hΓ hcs hσ c hc := by
    obtain ⟨he, k, -, hk⟩ := h
    obtain ⟨_, hsorted⟩ :=
      (Encoding.encodes_valueChecks he.plain (.ofWithin hΓ he.plain) hk).of_run hcs
    exact (hsorted c hc).subst (keepsKinds_of_carries he.functions (fun _ _ => trivial) hσ)
  formulaChecks h hΓ hr hσ c hc := by
    obtain ⟨he, hf⟩ := h
    obtain ⟨_, hfits⟩ :=
      (Encoding.encodes_formula he.plain _ (.ofWithin hΓ he.plain) hf).of_run hr
    exact (hfits.checks c hc).subst (keepsKinds_of_carries he.functions (fun _ _ => trivial) hσ)
  valueCalls h _ := by
    obtain ⟨he, k, -, hk⟩ := h
    exact calls_of_isSorted he (Node.forall_visit_value Node.IsSorted.parts _ ⟨k, hk⟩)
  formulaCalls h _ := by
    obtain ⟨he, hf⟩ := h
    exact calls_of_isSorted he (Node.forall_visit_formula Node.IsSorted.parts _ hf)
  arguments h _ hcallee := by
    obtain ⟨he, k, -, hk⟩ := h
    obtain ⟨ks, htakes, hvs⟩ := of_hasKind_call he.functions hk hcallee
    exact (forall₂_kinds htakes.inputs hvs).imp fun _ _ hv => ⟨he, hv⟩
  substValue h hσ k hk := by
    obtain ⟨he, k', hk', hv⟩ := h
    obtain rfl := hk'.unique hk
    exact hv.subst (keepsKinds_of_carries he.functions (fun _ => id) hσ)
  substFormula h hσ := h.2.subst (keepsKinds_of_carries h.1.functions (fun _ => id) hσ)
  substExpr {e m σ a} h hσ := by
    obtain ⟨he, k, hk, ha⟩ := h
    obtain rfl : .scalar .int = k := (show Ty.i32.IsKind (.scalar .int) from rfl).unique hk
    have hsort : a.HasSort e.scope .int := by
      cases a with
      | value v => exact ha
      | num n => rfl
      | op o a b => exact ha.2
    exact hsort.subst (keepsKinds_of_carries he.functions (fun _ => id) hσ)
  var h k hk := ⟨_, h, hk⟩
  number n h k hk := (h k hk).number _ n
  call h hcallee hargs k hk := by
    obtain ⟨he, k', hk', hcall⟩ := h
    obtain ⟨ks, htakes, -⟩ := of_hasKind_call he.functions hcall hcallee
    obtain rfl := hk'.unique hk
    exact ⟨_, ks, hcallee, htakes, haveKinds_of_keeps htakes.inputs hargs⟩
  ternary hc hv hw k hk := Value.hasKind_ternary hc (hv k hk) (hw k hk)
  update h hx hσ hb hw := by
    obtain ⟨he, k, hk, hplace⟩ := h
    exact keepsKind_update he.functions hk hplace hx hσ hb hw
  toExpr h := (h (.scalar .int) rfl).toExpr
  next h k hk := by
    obtain rfl : .scalar .int = k := (show Ty.i32.IsKind (.scalar .int) from rfl).unique hk
    exact Expr.HasSort.toValue ⟨rfl, h, rfl⟩
  num n := rfl
  lit b := trivial
  compare c ha hb := ⟨.int, .inl rfl, ha, hb⟩
  negate h := h.negate

variable {functions : List Function} {e : Env}

/-- A value that is evaluated suits its own type, if it has one. -/
theorem exists_suits {Γ : Scope} (h : v.Trusted Γ) :
    ∃ t k, v.Suits Γ t ∧ t.IsKind k ∧ (k = .unit ∨ v.HasKind Γ k) := by
  by_cases hkind : ∃ k, v.HasKind Γ k
  · obtain ⟨k, hk⟩ := hkind
    obtain ⟨t, -, ht⟩ := hk.typeOf v
    exact ⟨t, k, ⟨h, fun k' hk' => hk.unique hk' ▸ ht⟩, ht, .inr hk⟩
  · exact ⟨.unit, .unit, ⟨h, fun k hk => absurd ⟨k, hk⟩ hkind⟩, rfl, .inl rfl⟩

/-- The elements of a tuple may be bound to variables that they are rightly trusted to fit. -/
theorem sorted_destructures {Γ : Scope} (ht : t.IsKind k) (hk : k = .unit ∨ v.HasKind Γ k)
    (h : Declaration.Trusted Γ v ds) : (sortedness functions).Destructures t ds := by
  intro m w u us hw hu hus hlen i d hd hname k' hk'
  have hkind := hw k ht
  obtain ⟨u', hu', hukind⟩ := hkind.typeOf w
  obtain rfl := ok_unique hu' hu
  cases k with
  | unit => cases Eq.trans (Eq.symm hukind) hus
  | scalar s => exact absurd hukind (Ty.sortOf_of_underlying_tuple hus s)
  | tuple ss =>
    obtain ⟨us', hus', hss⟩ := hukind
    obtain rfl : us' = us := by simpa using hus'.symm.trans hus
    have hi : i < ds.length := (List.getElem?_eq_some_iff.mp hd).1
    have hlt : i < ss.length := hss.length_eq ▸ hlen ▸ hi
    have hv : v.HasKind Γ (.tuple ss) := hk.resolve_left (by simp)
    have hs := List.getElem?_eq_getElem hlt
    obtain rfl := (h.2 ss hv i d _ hd hname hs).unique hk'
    exact Value.finds_elementOf.hasKind_tuple (Value.constantIndex?_int (by have := h.1; omega)) hs
      hkind hkind

theorem sorted_assigns {a : Assignment} (he : e.Hosts functions) (hreads : readsValue e a.value = [])
    (hwrites : writes e o a.target = []) (h : a.Trusted e.scope) : (sortedness functions).Assigns e a := by
  obtain ⟨target, v, o'⟩ := a
  obtain ⟨hplace, hv, hfits⟩ := h
  cases target with
  | wildcard o'' =>
    obtain ⟨t, k, hsuits, -⟩ := exists_suits hv
    exact ⟨t, ⟨he, hreads, hsuits⟩, trivial⟩
  | name x o'' =>
    obtain ⟨t, ht⟩ := (knows_of_writes hwrites (by simp)).2.1.type?
    have htype : (Place.name x o'').typeOf e.scope = .ok t := by
      have hx : e.scope.type? x = some t := ht
      simp only [Place.typeOf, hx]
    exact ⟨t, ⟨he, hreads, hv, fun k hk => hfits t k htype hk⟩, ht⟩
  | elem shape x i o'' =>
    obtain ⟨hreadsPlace, hknown, -⟩ := knows_of_writes hwrites (by simp)
    have hbase : readPlace e (.elem shape x i o'') = [] := by
      simp only [readsPlace, List.append_eq_nil_iff] at hreadsPlace
      exact hreadsPlace.1
    obtain ⟨-, -, t, ht⟩ := of_readPlace hbase
    refine ⟨t, ⟨he, hreads, hv, fun k hk => hfits t k ht hk⟩, hknown.type?, he, hreadsPlace, hplace, ?_⟩
    intro k hk
    obtain ⟨t', ht', hkind⟩ := hk.typeOf
    obtain rfl := ok_unique ht ht'
    exact hkind

mutual

theorem sorted_command : ∀ (c : Command) {e : Env}, e.Hosts functions → c.Trusted e →
    (Scoping.command e c).2 = [] → c.Obeys (sortedness functions) e
  | .declare d, e, he, ht, h | .noop o, e, he, ht, h => trivial
  | .bind d v, e, he, ht, h => by
    simp only [Scoping.command, List.append_eq_nil_iff] at h
    exact ⟨he, h.1, ht⟩
  | .bindTuple ds v o, e, he, ht, h => by
    simp only [Scoping.command, List.append_eq_nil_iff] at h
    obtain ⟨t, k, hsuits, hkind, hk⟩ := exists_suits ht.1
    exact ⟨t, ⟨he, h.1, hsuits⟩, sorted_destructures hkind hk ht.2⟩
  | .assign a, e, he, ht, h => by
    simp only [Scoping.command, List.append_eq_nil_iff] at h
    exact sorted_assigns he h.1 h.2 ht
  | .assignAll as o, e, he, ht, h => by
    simp only [Scoping.command, List.append_eq_nil_iff, List.flatMap_eq_nil_iff] at h
    exact fun a ha => sorted_assigns he (h.1 a ha) (h.2 a ha) (ht a ha)
  | .assert f o, e, he, ht, h | .assume f o, e, he, ht, h | .invariant f o, e, he, ht, h => ⟨he, h, ht⟩
  | .cond bs o, e, he, ht, h => sorted_branches bs he ht h
  | .whileLoop c inv variant body o, e, he, ht, h => by
    obtain ⟨htc, htinv, htvar, htbody⟩ := ht
    simp only [Scoping.command, List.append_eq_nil_iff] at h
    obtain ⟨⟨⟨hc, hinv⟩, hvar⟩, hbody⟩ := h
    refine ⟨⟨he, hc, htc⟩, ⟨he, hinv, htinv⟩, fun a ha => ?_, sorted_block body he htbody hbody⟩
    have hta := htvar a ha
    obtain rfl := Option.mem_def.mp ha
    cases a <;> exact ⟨he, hvar, hta⟩
  | .forRange i lo hi inv body o, e, he, ht, h => by
    obtain ⟨htlo, hthi, htinv, htbody⟩ := ht
    simp only [Scoping.command, List.append_eq_nil_iff] at h
    obtain ⟨⟨⟨⟨hlo, hhi⟩, hi'⟩, hinv⟩, hbody⟩ := h
    have hinner := he.declare hi' false
    exact ⟨⟨he, hlo, htlo⟩, ⟨he, hhi, hthi⟩, ⟨hinner, hinv, htinv⟩,
      sorted_block body hinner htbody hbody⟩

theorem sorted_branches : ∀ (bs : Branches) {e : Env}, e.Hosts functions → bs.Trusted e →
    Scoping.branches e bs = [] → bs.Obeys (sortedness functions) e
  | .otherwise b, e, he, ht, h => sorted_block b he ht h
  | .branch c b rest, e, he, ht, h => by
    simp only [Scoping.branches, List.append_eq_nil_iff] at h
    exact ⟨⟨he, h.1.1, ht.1⟩, sorted_block b he ht.2.1 h.1.2, sorted_branches rest he ht.2.2 h.2⟩

theorem sorted_block : ∀ (cs : List Command) {e : Env}, e.Hosts functions →
    Command.AllTrusted e cs → (Scoping.block e cs).2 = [] →
      Command.AllObey (sortedness functions) e cs
  | [], e, he, ht, h => trivial
  | c :: cs, e, he, ht, h => by
    obtain ⟨hfirst, hrest⟩ := block_cons h
    exact ⟨sorted_command c he ht.1 hfirst, sorted_block cs (he.command hfirst) ht.2 hrest⟩

end

theorem sorted_contract {f : Function} (hrules : Scoping.function functions f = [])
    (h : f.SortedContract functions) : f.Promises (sortedness functions) := by
  obtain ⟨hinput, -, -, hpost⟩ := hosts_of_function hrules
  exact ⟨hrules, ⟨hinput, h.precondition⟩, ⟨hpost, h.postcondition⟩⟩

theorem sorted_function {f : Function} (hrules : Scoping.function functions f = [])
    (h : f.Trusted functions) : f.Obeys (sortedness functions) := by
  obtain ⟨hinput, hentry, hexit, hpost⟩ := hosts_of_function hrules
  obtain ⟨hpre, hresult, hpostReads⟩ := reads_of_function hrules
  exact ⟨False.elim, ⟨hinput, hpre, h.precondition⟩,
    sorted_block f.body hentry h.body (of_function hrules).2.2, ⟨hexit, hresult, h.result⟩,
    ⟨hpost, hpostReads, h.postcondition⟩⟩

end Generation

/-! ### Queries -/

/-- If the contracts of a program that obeys the scoping rules are well-sorted, and what generation takes
on trust about one of its functions holds, then the queries for the obligations of that function can be
made, are well-sorted and can be written down. -/
theorem Program.queries_wellSorted {p : Program} (hvalid : p.validate = [])
    (hcontracts : ∀ g ∈ p.functions, g.SortedContract p.functions) (modes : Modes) {f : Function}
    (hf : f ∈ p.functions) (htrust : f.Trusted p.functions) {os : List Obligation}
    (hos : f.obligations modes p.functions = .ok os) :
    ∀ o ∈ os, ∃ q, o.query = .ok q ∧ q.WellSorted ∧ ∀ layout, ∃ text, q.print? layout = some text := by
  have hrules := Scoping.of_functions hvalid
  have hfs : ∀ g ∈ p.functions, g.Promises (Generation.sortedness p.functions) := fun g hg =>
    Generation.sorted_contract (hrules g hg) (hcontracts g hg)
  intro o ho
  obtain ⟨m, hscope, hnames, hgoal, hassumptions⟩ :=
    (Generation.sortedness p.functions).keeps_obligations modes hfs hf
      (Generation.sorted_function (hrules f hf) htrust) hos o ho
  have hplain : o.scope.Plain := by
    intro x t hx
    rw [hscope] at hx
    exact Encoding.isPlain_of_constant (hnames x t hx)
  have hsorted : ∀ g ∈ o.formulas, g.IsSorted o.scope := by
    rw [hscope, Obligation.formulas]
    exact List.forall_mem_cons.mpr ⟨hgoal, hassumptions⟩
  obtain ⟨q, hq, hwell⟩ := o.query_wellSorted hplain hsorted
  exact ⟨q, hq, hwell, hwell.exists_print⟩

/-- The first element of a tuple. -/
def fetch : Function where
  name := "fetch"
  inputs := [⟨"t", .tuple [.i32, .bool], false, none⟩]
  output := .i32
  precondition := .lit true
  postcondition := .equal (.value (.var resultName)) (.value (.place (.elem .tuple "t" (.int 0) none) none))
  result := .place (.elem .tuple "t" (.int 0) none) none
  body := []
  origin := none

/-- Writes to an array what `fetch` returns, and more in a branch. -/
def fill : Function where
  name := "fill"
  inputs := [⟨"a", .array .i32 2, true, none⟩, ⟨"b", .bool, false, none⟩]
  output := .unit
  precondition := .lit true
  postcondition := .lit true
  result := .unit none
  body := [
    .assign ⟨.elem .array "a" (.int 0) none, .call "fetch" [.tuple [.int 1, .var "b"] none] none, none⟩,
    .cond (.branch (.value (.var "b")) [.assign ⟨.elem .array "a" (.int 1) none, .int 2, none⟩]
      (.otherwise [])) none,
    .assert (.equal (.value (.place (.elem .array "a" (.int 0) none) none)) (.num 1)) none]
  origin := none

theorem sortedContract_fetch : fetch.SortedContract [fetch, fill] := by
  refine ⟨trivial, .int, ⟨.i32, ?_, rfl⟩, [.int, .bool], 0, .int, rfl, ⟨.tuple [.i32, .bool], ?_, ?_⟩, rfl, rfl⟩
  · cbv
  · cbv
  · exact ⟨_, rfl, .cons rfl (.cons rfl .nil)⟩

theorem Value.trusted_of_typeOf {Γ : Scope} (hv : v.Conforms Γ) (ht : v.typeOf Γ = .ok t)
    (hunit : t.underlying ≠ .unit) : v.Trusted Γ := by
  refine ⟨hv, fun u hu hunit' => absurd hunit' ?_⟩
  obtain rfl := ok_unique ht hu
  exact hunit

/-- A value of the type of the place that it is assigned to fits it. -/
theorem Assignment.trusted_of_typeOf {Γ : Scope} {a : Assignment}
    (htarget : (Value.place a.target none).Conforms Γ) (hvalue : a.value.Conforms Γ)
    (ht : a.target.typeOf Γ = .ok t) (hv : a.value.typeOf Γ = .ok t) (hunit : t.underlying ≠ .unit) :
    a.Trusted Γ := by
  refine ⟨Value.trusted_of_typeOf htarget ht hunit, Value.trusted_of_typeOf hvalue hv hunit, ?_⟩
  intro u k hu hk
  obtain ⟨u', hu', hkind⟩ := hk.typeOf
  obtain rfl := ok_unique hu' hv
  obtain rfl := ok_unique hu ht
  exact hkind

theorem trusted_fill : fill.Trusted [fetch, fill] := by
  have hcall : (Value.call "fetch" [.tuple [.int 1, .var "b"] none] none).Conforms
      (fill.entryEnv [fetch, fill]).scope := by
    refine ⟨⟨⟨trivial, trivial, trivial⟩, trivial⟩, fun g hg => ?_⟩
    have hfetch : (fill.entryEnv [fetch, fill]).scope.function? "fetch" = some fetch := by
      simp [Scope.function?, Scoping.Env.scope, Function.entryEnv, Function.inputEnv, fill, fetch,
        Scoping.declare, Scoping.Env.add]
    obtain rfl := Option.mem_unique hfetch hg
    refine ⟨fun ks hks => ?_, fun ts hts => by cases hts⟩
    obtain ⟨k, ks', rfl, hk, rfl⟩ := hks
    have hpair : (Value.tuple [.int 1, .var "b"] none).HasKind (fill.entryEnv [fetch, fill]).scope
        (.tuple [.int, .bool]) :=
      ⟨_, rfl, _, _, rfl, ⟨rfl, rfl⟩, _, _, rfl, ⟨.bool, by cbv, rfl⟩, rfl⟩
    obtain rfl := hpair.unique hk
    exact .cons ⟨_, rfl, .cons rfl (.cons rfl .nil)⟩ .nil
  refine ⟨trivial, ⟨?_, ⟨trivial, ⟨?_, trivial⟩, trivial⟩, ⟨trivial, trivial⟩, trivial⟩, ?_, trivial⟩
  · exact Assignment.trusted_of_typeOf trivial hcall (t := .i32) (by cbv) (by cbv) (by simp [Ty.underlying])
  · exact Assignment.trusted_of_typeOf trivial trivial (t := .i32) (by cbv) (by cbv) (by simp [Ty.underlying])
  · exact ⟨⟨trivial, fun _ _ _ => rfl⟩, fun k hk => hk ▸ rfl⟩

theorem Program.queries_wellSorted_fill : ∃ os, fill.obligations .standard [fetch, fill] = .ok os ∧
    os.length = 1 ∧ ∀ o ∈ os, ∃ q, o.query = .ok q ∧ q.WellSorted ∧
      ∀ layout, ∃ text, q.print? layout = some text := by
  have hruns : (fill.obligations .standard [fetch, fill]).toOption.any fun os => os.length == 1 := by
    decide +kernel
  obtain ⟨os, hos, hlen⟩ := (Option.any_eq_true _ _).mp hruns
  have hok := toOption_eq_some.mp hos
  refine ⟨os, hok, by simpa using hlen, ?_⟩
  refine Program.queries_wellSorted (p := ⟨[fetch, fill]⟩) (by decide +kernel) ?_ .standard (by simp)
    trusted_fill hok
  intro g hg
  rcases List.mem_pair.mp hg with rfl | rfl
  · exact sortedContract_fetch
  · exact ⟨trivial, trivial⟩

/-- Writes a truth value to an array of integers. -/
def storeText : SourceFile := .ofString "store"
  "(defun f ((mut a (array i32 2)) (i i32)) unit
    (body (set (at a 0) true) (assert (== (at a i) 0))))"

/-- Obligations of a program that obeys the scoping rules, and whose queries are ill-sorted: what is
written to an array is not compared with the type of its elements. -/
theorem Program.exists_illSorted : ∃ p f os, (Program.read storeText).program = some p ∧
    p.validate = [] ∧ f ∈ p.functions ∧ f.obligations .standard p.functions = .ok os ∧
    ∃ o ∈ os, ∃ q, o.query = .ok q ∧ ¬ q.WellSorted := by
  obtain ⟨p, f, hp, hvalid, hf, hruns⟩ := Program.exists_of_read storeText
    (fun p f => (f.obligations .standard p.functions).toOption.any fun os => os.any fun o =>
      o.query.toOption.any fun q =>
        !q.assertions.all fun t => t.sort? q.declarations .empty == some .bool) (by decide +kernel)
  obtain ⟨os, hos, hillSorted⟩ := (Option.any_eq_true _ _).mp hruns
  obtain ⟨o, ho, hq⟩ := List.any_eq_true.mp hillSorted
  obtain ⟨q, hq, hsort⟩ := (Option.any_eq_true _ _).mp hq
  refine ⟨p, f, os, hp, hvalid, hf, toOption_eq_some.mp hos, o, ho, q, toOption_eq_some.mp hq, fun hwell => ?_⟩
  simp only [Bool.not_eq_true', List.all_eq_false] at hsort
  obtain ⟨t, ht, hne⟩ := hsort
  exact hne (by simp [hwell.assertions t ht])

end Verdict
