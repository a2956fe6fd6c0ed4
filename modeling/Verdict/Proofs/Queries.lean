import Verdict.Proofs.Recording

/-! # Queries are faithful

From a valuation and an interpretation of the functions one gets a model of the solver in which every
encoding means the same, and from a model that obeys the declarations of a query a valuation. So a query
without a model belongs to an obligation that is true; and a query with a model to one that is not, if
nothing is called. -/

namespace Verdict

open Encoding

/-! ### What represents a value, or anything else of its sort -/

/-- Something of a sort. -/
def SmtSort.blank : SmtSort → Datum
  | .int => .int 0
  | .bool => .bool false
  | .array s => .array fun _ => s.blank

theorem SmtSort.has_blank : ∀ s : SmtSort, s.Has s.blank
  | .int => ⟨0, rfl⟩
  | .bool => ⟨false, rfl⟩
  | .array s => ⟨_, rfl, fun _ => s.has_blank⟩

variable {v : Val}

namespace Ty

open Classical in
/-- What represents a value of a type, and something of its sort if there is no such value. -/
noncomputable def datum (t : Ty) (v : Val) : Datum :=
  if t.Has v then v.datum else
    match t.sortOf with
    | .ok s => s.blank
    | .error _ => .bool false

variable {t : Ty}

theorem represents_datum_of_has {s : SmtSort} (hs : t.sortOf = .ok s) (hv : t.Has v) :
    t.Represents v (t.datum v) := by
  rw [datum, if_pos hv]
  exact represents_datum hs hv

theorem has_datum {s : SmtSort} (hs : t.sortOf = .ok s) (v : Val) : s.Has (t.datum v) := by
  by_cases hv : t.Has v
  · exact (represents_datum_of_has hs hv).has hs
  · rw [datum, if_neg hv, hs]
    exact s.has_blank

/-- The types of the elements of a tuple. -/
def elements (t : Ty) : List Ty :=
  match t.underlying with
  | .tuple ts => ts
  | _ => []

theorem Has.underlying (h : t.Has v) : t.underlying.Has v := by
  rwa [← has_bare, bare_underlying, has_bare]

end Ty

open Classical in
/-- The array that holds the elements of a sort of a tuple. -/
noncomputable def partDatum (ts : List Ty) (v : Val) (s : SmtSort) : Datum :=
  .array fun i =>
    match ts[i.toNat]? with
    | some t => if t.sortOf = .ok s then t.datum (v.get i) else s.blank
    | none => s.blank

theorem has_partDatum (ts : List Ty) (v : Val) (s : SmtSort) : s.array.Has (partDatum ts v s) := by
  refine ⟨_, rfl, fun i => ?_⟩
  split
  · split_ifs with hs
    · exact Ty.has_datum hs _
    · exact s.has_blank
  · exact s.has_blank

theorem partsRepresent_partDatum {ts : List Ty} (h : (Ty.tuple ts).Has v) :
    PartsRepresent ts v (partDatum ts v) := by
  obtain ⟨vs, rfl, hvs⟩ := h
  refine ⟨vs, rfl, hvs.length_eq, fun i t w s ht hw hs => ⟨_, rfl, ?_⟩⟩
  obtain ⟨w', hw', hhas⟩ := hvs.getElem? ht
  obtain rfl := Option.mem_unique hw hw'
  simp only [Int.toNat_natCast, ht, hs, if_true, Val.get, Int.natCast_nonneg, hw, Option.getD_some]
  exact Ty.represents_datum_of_has hs hhas

/-! ### The model of a valuation -/

/-- What a function gives for arguments that are represented by a list. -/
def Function.resultFor (g : Function) (I : Interp) (ds : List Datum) : Val :=
  I.call g.name (readArgs g.inputTypes ds)

/-- Whether a name is a part of a variable. -/
def Scope.HasPart (Γ : Scope) (x : String) (s : SmtSort) : Prop :=
  ∃ t ts u, Γ.type? x = some t ∧ t.underlying = .tuple ts ∧ u ∈ ts ∧ u.sortOf = .ok s

open Classical in
/-- What a name denotes, applied to some arguments. -/
noncomputable def Scope.denote (Γ : Scope) (I : Interp) (ρ : Valuation) (n : String)
    (ds : List Datum) : Datum :=
  if h : ∃ g, Γ.function? g.name = some g ∧ n = functionName g.name then
    h.choose.output.datum (h.choose.resultFor I ds)
  else if h : ∃ p : Function × SmtSort,
      Γ.function? p.1.name = some p.1 ∧ n = partName (functionName p.1.name) p.2 then
    partDatum h.choose.1.output.elements (h.choose.1.resultFor I ds) h.choose.2
  else if h : ∃ p : Ty × String × SmtSort,
      Γ.type? p.2.1 = some p.1 ∧ Γ.HasPart p.2.1 p.2.2 ∧ n = partName p.2.1 p.2.2 then
    partDatum h.choose.1.elements (ρ h.choose.2.1) h.choose.2.2
  else
    match Γ.type? n with
    | some t => t.datum (ρ n)
    | none => .bool false

/-- The model in which names denote what represents the values of a valuation. -/
noncomputable def Scope.model (Γ : Scope) (I : Interp) (ρ : Valuation) : SmtModel :=
  ⟨fun n => Γ.denote I ρ n [], Γ.denote I ρ, I.byZero⟩

variable {calls : List Function}

section

variable {Γ : Scope} {I : Interp} {ρ : Valuation}

theorem Scope.denote_functionName {f : String} {g : Function} (hg : Γ.function? f = some g)
    (ds : List Datum) : Γ.denote I ρ (functionName f) ds = g.output.datum (g.resultFor I ds) := by
  obtain rfl := name_of_function? hg
  have h : ∃ g', Γ.function? g'.name = some g' ∧ functionName g.name = functionName g'.name :=
    ⟨g, hg, rfl⟩
  obtain ⟨hc, heq⟩ := h.choose_spec
  obtain heq : h.choose = g := by
    rw [← functionName_inj.mp heq] at hc
    exact (Option.mem_unique hg hc).symm
  rw [denote, dif_pos h, heq]

theorem Scope.denote_partName_functionName {f : String} {g : Function} (hg : Γ.function? f = some g)
    (s : SmtSort) (ds : List Datum) : Γ.denote I ρ (partName (functionName f) s) ds =
      partDatum g.output.elements (g.resultFor I ds) s := by
  obtain rfl := name_of_function? hg
  have hnot : ¬ ∃ g', Γ.function? g'.name = some g' ∧
      partName (functionName g.name) s = functionName g'.name :=
    fun ⟨g', _, h⟩ => functionName_ne_partName _ _ _ h.symm
  have h : ∃ p : Function × SmtSort, Γ.function? p.1.name = some p.1 ∧
      partName (functionName g.name) s = partName (functionName p.1.name) p.2 := ⟨(g, s), hg, rfl⟩
  obtain ⟨hc, heq⟩ := h.choose_spec
  obtain ⟨hname, hs⟩ := partName_inj.mp heq
  rw [← functionName_inj.mp hname] at hc
  have hfst : h.choose.1 = g := (Option.mem_unique hg hc).symm
  rw [denote, dif_neg hnot, dif_pos h, hfst, ← hs]

variable {x n : String} {t : Ty} {d : Declarations} {s : SmtSort} {M : SmtModel}

theorem Scope.denote_partName (ht : Γ.type? x = some t) (hpart : Γ.HasPart x s) (hx : ¬ Γ.Reserves x)
    (ds : List Datum) : Γ.denote I ρ (partName x s) ds = partDatum t.elements (ρ x) s := by
  have hnot : ¬ ∃ g, Γ.function? g.name = some g ∧ partName x s = functionName g.name :=
    fun ⟨g, _, h⟩ => functionName_ne_partName _ _ _ h.symm
  have hnot' : ¬ ∃ p : Function × SmtSort, Γ.function? p.1.name = some p.1 ∧
      partName x s = partName (functionName p.1.name) p.2 :=
    fun ⟨p, hp, h⟩ => hx ((partName_inj.mp h).1 ▸ .function hp)
  have h : ∃ p : Ty × String × SmtSort, Γ.type? p.2.1 = some p.1 ∧ Γ.HasPart p.2.1 p.2.2 ∧
      partName x s = partName p.2.1 p.2.2 := ⟨(t, x, s), ht, hpart, rfl⟩
  obtain ⟨hc, -, heq⟩ := h.choose_spec
  obtain ⟨hx', hs⟩ := partName_inj.mp heq
  rw [← hx', ht, Option.some_inj] at hc
  rw [denote, dif_neg hnot, dif_neg hnot', dif_pos h, ← hc, ← hx', ← hs]

theorem Scope.denote_var (ht : Γ.type? x = some t) (hx : ¬ Γ.Reserves x) (ds : List Datum) :
    Γ.denote I ρ x ds = t.datum (ρ x) := by
  rw [denote, dif_neg, dif_neg, dif_neg, ht]
  · rintro ⟨p, hp, ⟨t', ts, u, ht', hts, hu, hs⟩, rfl⟩
    exact hx (.part ht' hts hu hs)
  · rintro ⟨p, hp, rfl⟩
    exact hx (.result p.2 hp)
  · rintro ⟨g, hg, rfl⟩
    exact hx (.function hg)

theorem Scope.model_apply (hn : '\'' ∈ n.toList) (ds : List Datum) :
    (Γ.model I ρ).apply n ds = Γ.denote I ρ n ds := by
  rw [SmtModel.apply_of_prime _ hn]
  split_ifs with hds
  · rw [hds]
    rfl
  · rfl

/-- Whether no variable of a scope has a name that the solver needs. -/
def Scope.Clean (Γ : Scope) : Prop := ∀ n, Γ.Reserves n → Γ.type? n = none

theorem Scope.Clean.not_reserves (h : Γ.Clean) (ht : Γ.type? x = some t) : ¬ Γ.Reserves x := by
  intro hx
  rw [h x hx] at ht
  cases ht

/-- Functions give values of their output types. -/
def Scope.TypesCalls (Γ : Scope) (call : String → List Val → Val) : Prop :=
  ∀ f g args, Γ.function? f = some g → Ty.HasAll (g.inputs.map Declaration.type) args →
    g.output.Has (call f args)

/-- The model of a valuation renders it. -/
theorem Scope.model_renders {call : String → List Val → Val} {byZero : Operator → ℤ → ℤ}
    (hρ : ρ.Fits Γ.vars) (hclean : Γ.Clean)
    (hcalls : ∀ f g, (Scope.mk Γ.vars calls).function? f = some g →
      Γ.function? f = some g ∧ g.PassesSorts) (hcall : (Scope.mk Γ.vars calls).TypesCalls call)
    (xs : Names) :
    (Γ.model (.total call byZero) ρ).Renders (.total call byZero) ρ ⟨Γ.vars, calls⟩ Γ.Reserves xs := by
  refine ⟨rfl, rfl, fun x _ t s ht hs => ?_, fun x _ t ts ht hts => ⟨?_, ?_⟩, fun f g hg => ?_⟩
  · change Γ.type? x = some t at ht
    change t.Represents (ρ x) (Γ.denote (.total call byZero) ρ x [])
    rw [denote_var ht (hclean.not_reserves ht)]
    exact Ty.represents_datum_of_has hs (hρ x t ht)
  · exact fun u hu s hs => .part ht hts hu hs
  · have hhas := (hρ x t ht).underlying
    rw [hts] at hhas
    refine (partsRepresent_partDatum hhas).congr fun u hu s hs => ?_
    have helems : t.elements = ts := by rw [Ty.elements, hts]
    change Γ.type? x = some t at ht
    change Γ.denote (.total call byZero) ρ (partName x s) [] = _
    rw [denote_partName ht ⟨t, ts, u, ht, hts, hu, hs⟩ (hclean.not_reserves ht), helems]
  · obtain ⟨hg', hpass⟩ := hcalls f g hg
    obtain rfl := name_of_function? hg
    refine ⟨hpass, .function hg', fun s => .result s hg', fun ds s hds hs => ?_, fun ds ts hds hts => ?_⟩
    · rw [model_apply (prime_mem_functionName _), denote_functionName hg']
      exact Ty.represents_datum_of_has hs (hcall _ g _ hg ((Ty.hasAll_bareAll _ _).mp hds))
    · have hhas := (hcall _ g _ hg ((Ty.hasAll_bareAll _ _).mp hds)).underlying
      rw [hts] at hhas
      refine (partsRepresent_partDatum hhas).congr fun u hu s hs => ?_
      have helems : g.output.elements = ts := by rw [Ty.elements, hts]
      rw [model_apply (prime_mem_partName _ _), denote_partName_functionName hg', helems]
      rfl

/-- The model of a valuation gives names what has their sort. -/
theorem Scope.model_obeys (hd : d.Within Γ) (hclean : Γ.Clean) : (Γ.model I ρ).Obeys d := by
  refine ⟨fun n s hn => ?_, fun n sig hn ds _ => ?_⟩
  · obtain ⟨x, hx⟩ := hd.consts n s hn
    change s.Has (Γ.denote I ρ n [])
    cases hx with
    | self ht hs =>
      rw [denote_var ht (hclean.not_reserves ht)]
      exact Ty.has_datum hs _
    | part ht hts hu hs =>
      rw [denote_partName ht ⟨_, _, _, ht, hts, hu, hs⟩ (hclean.not_reserves ht)]
      exact has_partDatum _ _ _
  · obtain ⟨f, g, hg, hsymbol⟩ := hd.funs n sig hn
    obtain rfl := name_of_function? hg
    generalize sig.result = s at hsymbol
    cases hsymbol with
    | self hs =>
      rw [model_apply (prime_mem_functionName _), denote_functionName hg]
      exact Ty.has_datum hs _
    | part hts hu hs =>
      rw [model_apply (prime_mem_partName _ _), denote_partName_functionName hg]
      exact has_partDatum _ _ _

/-! ### The valuation of a model -/

theorem Scope.Symbol.sort_eq (hclean : Γ.Clean) {y : String} {s' : SmtSort} (h : Γ.Symbol x n s)
    (h' : Γ.Symbol y n s') : s = s' := by
  cases h with
  | self ht hs =>
    cases h' with
    | self ht' hs' =>
      obtain rfl := Option.mem_unique ht ht'
      exact ok_unique hs hs'
    | part ht' hts hu hs' => exact absurd (.part ht' hts hu hs') (hclean.not_reserves ht)
  | part ht hts hu hs =>
    generalize hn : partName x _ = n at h'
    cases h' with
    | self ht' hs' => exact absurd (hn ▸ .part ht hts hu hs) (hclean.not_reserves ht')
    | part _ _ _ _ => rw [(partName_inj.mp hn).2]

/-- A model that obeys the declarations has something of the right sort for each of them. -/
theorem SmtModel.Obeys.has_const (hM : M.Obeys d) (hd : d.Within Γ) (hclean : Γ.Clean) (hx : Γ.Declared d x)
    (hn : Γ.Symbol x n s) : s.Has (M.const n) := by
  obtain ⟨s', hs'⟩ := (NameMap.contains_iff _ _).mp (hx.symbols n s hn)
  obtain ⟨y, hy⟩ := hd.consts n s' hs'
  obtain rfl := hn.sort_eq hclean hy
  exact hM.consts n s hs'

theorem partsRepresent_readTuple {ts : List Ty} {parts : SmtSort → Datum}
    (h : ∀ t ∈ ts, ∃ s, t.sortOf = .ok s ∧ s.array.Has (parts s)) :
    PartsRepresent ts (.tuple (readTuple ts parts)) parts := by
  refine ⟨_, rfl, by simp [readTuple], fun i t w s ht hw hs => ?_⟩
  obtain ⟨s', hs', f, hf, hall⟩ := h t (List.mem_of_getElem? ht)
  obtain rfl := ok_unique hs hs'
  refine ⟨f, hf, ?_⟩
  simp only [readTuple, List.getElem?_mapIdx, ht, Option.map_some, Option.some_inj, hs, hf] at hw
  rw [← hw]
  exact (Ty.represents_read hs (hall i)).2

/-- A model that obeys the declarations gives a variable a value of its type. -/
theorem SmtModel.Obeys.exists_val (hM : M.Obeys d) (hd : d.Within Γ) (hclean : Γ.Clean) (hx : Γ.Declared d x)
    (ht : Γ.type? x = some t) (hknown : t.hasUnknown = false) : ∃ v, t.Has v ∧
      (∀ s, t.sortOf = .ok s → t.Represents v (M.const x)) ∧
        ∀ ts, t.underlying = .tuple ts → PartsRepresent ts v fun s => M.const (partName x s) := by
  by_cases htuple : ∃ ts, t.underlying = .tuple ts
  · obtain ⟨ts, hts⟩ := htuple
    have hsorts := hx.sorts t ts ht hts
    have hparts : ∀ u ∈ ts, ∃ s, u.sortOf = .ok s ∧ s.array.Has (M.const (partName x s)) := by
      intro u hu
      obtain ⟨s, hs⟩ := hsorts u hu
      exact ⟨s, hs, hM.has_const hd hclean hx (.part ht hts hu hs)⟩
    have hrep := partsRepresent_readTuple hparts
    have hhas : ∀ v, (Ty.tuple ts).Has v → t.Has v := by
      intro v hv
      rwa [← Ty.has_bare, ← Ty.bare_underlying, hts, Ty.has_bare]
    refine ⟨_, hhas _ (hrep.has hsorts), fun s hs => absurd hs (Ty.sortOf_of_underlying_tuple hts s),
      fun us hus => ?_⟩
    · obtain rfl := Ty.tuple.inj (hts.symm.trans hus)
      exact hrep
  · have hnot : ∀ ts, t.underlying ≠ .tuple ts := fun ts hts => htuple ⟨ts, hts⟩
    rcases hs : t.sortOf with e | s
    · exact ⟨t.blank, t.has_blank hknown, fun s hs' => (by simp at hs'),
        fun ts hts => absurd hts (hnot ts)⟩
    · obtain ⟨hhas, hrep⟩ := Ty.represents_read hs (hM.has_const hd hclean hx (.self ht hs))
      exact ⟨_, hhas, fun _ _ => hrep, fun ts hts => absurd hts (hnot ts)⟩

/-- A model that obeys the declarations renders some valuation. -/
theorem SmtModel.Obeys.exists_renders (hM : M.Obeys d) (hd : d.Within Γ) (hclean : Γ.Clean)
    (hknown : ∀ x t, Γ.type? x = some t → t.hasUnknown = false) (xs : Names)
    (hxs : ∀ x ∈ xs.members, Γ.Declared d x) (call : String → List Val → Val) :
    ∃ ρ : Valuation, ρ.Fits Γ.vars ∧
      M.Renders (.total call M.byZero) ρ ⟨Γ.vars, []⟩ Γ.Reserves xs := by
  have hex : ∀ x, ∃ v, ∀ t, Γ.type? x = some t → t.Has v ∧ (x ∈ xs.members →
      (∀ s, t.sortOf = .ok s → t.Represents v (M.const x)) ∧
        ∀ ts, t.underlying = .tuple ts → PartsRepresent ts v fun s => M.const (partName x s)) := by
    intro x
    rcases ht : Γ.type? x with _ | t
    · exact ⟨.unit, fun t ht' => by cases ht'⟩
    · by_cases hx : x ∈ xs.members
      · obtain ⟨v, hv, hrep⟩ := hM.exists_val hd hclean (hxs x hx) ht (hknown x t ht)
        refine ⟨v, fun u hu => ?_⟩
        obtain rfl := Option.some_inj.mp hu
        exact ⟨hv, fun _ => hrep⟩
      · refine ⟨t.blank, fun u hu => ?_⟩
        obtain rfl := Option.some_inj.mp hu
        exact ⟨t.has_blank (hknown x t ht), fun h => absurd h hx⟩
  choose ρ hρ using hex
  refine ⟨ρ, fun x t ht => (hρ x t ht).1, rfl, rfl, fun x hx t s ht hs => ?_,
    fun x hx t ts ht hts => ⟨?_, ?_⟩, fun f g hg => by cases hg⟩
  · exact ((hρ x t ht).2 hx).1 s hs
  · exact fun u hu s hs => .part ht hts hu hs
  · exact ((hρ x t ht).2 hx).2 ts hts

end

/-! ### Queries -/

namespace Encoding

theorem holds_encodeAll {M : SmtModel} {I : Interp} {ρ : Valuation} {env : Env} : ∀ {fs : List Formula}
    {ts : List Term}, Yields (Obligation.encodeAll env fs) ts →
    (∀ f ∈ fs, ∀ r, Yields (formula env f) r → (r.term.Holds M ↔ f.Holds I ρ)) →
      ((∀ t ∈ ts, t.Holds M) ↔ ∀ f ∈ fs, f.Holds I ρ)
  | [], ts, h, _ => by
    obtain rfl := yields_pure h
    simp
  | f :: fs, ts, h, hfs => by
    obtain ⟨r, hr, h⟩ := h.bind
    obtain ⟨ts', hts', h⟩ := h.bind
    obtain rfl := yields_pure h
    simp only [List.forall_mem_cons] at hfs ⊢
    rw [hfs.1 r hr, holds_encodeAll hts' hfs.2]

theorem adds_encodeAll {Γ : Scope} {env : Env} (hΓ : env.Below Γ) : ∀ {fs : List Formula}
    {ts : List Term} {d d' : Declarations}, Ran (Obligation.encodeAll env fs) d ts d' →
    (∀ f ∈ fs, ∀ x ∈ f.binders, ¬ Γ.Reserves x) →
      Adds Γ (fun y => ∃ f ∈ fs, env.Free f.freeVars y) d d'
  | [], ts, d, d', h, _ => by
    obtain ⟨-, rfl⟩ := ran_pure.mp h
    exact Adds.none.mono fun y hy => by simp at hy
  | f :: fs, ts, d, d', h, hfs => by
    simp only [List.forall_mem_cons] at hfs
    simp only [Obligation.encodeAll, ran_bind, ran_pure] at h
    obtain ⟨r, d₁, hr, ts', d₂, hts, -, rfl⟩ := h
    refine ((adds_formula (runs_formula hr) hΓ hfs.1).trans (adds_encodeAll hΓ hts hfs.2)).mono
      fun y hy => ?_
    simpa only [List.exists_mem_cons_iff] using hy

end Encoding

namespace Obligation

variable {o : Obligation} {q : Query}

def formulas (o : Obligation) : List Formula := o.goal :: o.assumptions

theorem run_of_query (hq : o.query = .ok q) :
    o.encode.run.run default = (.ok q.assertions, q.declarations) := by
  unfold query at hq
  split at hq
  · next ts d hrun =>
    obtain rfl := Except.ok.inj hq
    exact hrun
  · cases hq

/-- The assertions of a query are true where the assumptions are true and the goal is not. -/
theorem assertions_hold_iff (hq : o.query = .ok q) {M : SmtModel} {I : Interp} {ρ : Valuation}
    (hty : ∀ f ∈ o.formulas, f.Typed .queries ⟨o.scope.vars, calls⟩)
    (hcalls : ∀ f g, (Scope.mk o.scope.vars calls).function? f = some g → o.scope.function? f = some g)
    (hbinders : ∀ f ∈ o.formulas, ∀ x ∈ f.binders, ¬ o.scope.Reserves x)
    (hM : ∀ f ∈ o.formulas, M.Renders I ρ ⟨o.scope.vars, calls⟩ o.scope.Reserves f.freeVars) :
    (∀ t ∈ q.assertions, t.Holds M) ↔ (∀ f ∈ o.assumptions, f.Holds I ρ) ∧ ¬ o.goal.Holds I ρ := by
  have hknows : (Env.ofScope o.scope).Knows ⟨o.scope.vars, calls⟩ := ⟨fun _ _ h => h, hcalls⟩
  have hformula : ∀ f ∈ o.formulas, ∀ r, Yields (Encoding.formula (Env.ofScope o.scope) f) r →
      r.term.Decides M (f.Holds I ρ) := fun f hf r ⟨d, d', hr⟩ =>
    renders_formula (runs_formula hr) hknows (hty f hf) (hbinders f hf) (hM f hf)
  have hyields : Yields o.encode q.assertions := ⟨_, _, run_of_query hq⟩
  obtain ⟨ts, hts, h⟩ := hyields.bind
  obtain ⟨r, hr, h⟩ := h.bind
  rw [← yields_pure h]
  simp only [List.forall_mem_append, List.forall_mem_singleton]
  rw [holds_encodeAll hts fun f hf r hr =>
      (hformula f (List.mem_cons_of_mem _ hf) r hr).holds_iff,
    (hformula o.goal List.mem_cons_self r hr).not.holds_iff]

/-- A query declares what its assertions need. -/
theorem declarations_of_query (hq : o.query = .ok q)
    (hbinders : ∀ f ∈ o.formulas, ∀ x ∈ f.binders, ¬ o.scope.Reserves x) :
    q.declarations.Within o.scope ∧
      ∀ f ∈ o.formulas, ∀ x ∈ f.freeVars.members, o.scope.Declared q.declarations x := by
  have hbelow := Env.below_ofScope o.scope
  simp only [formulas, List.forall_mem_cons] at hbinders
  have hrun : Ran o.encode default q.assertions q.declarations := run_of_query hq
  simp only [encode, ran_bind, ran_pure] at hrun
  obtain ⟨ts, d₁, hts, r, d₂, hr, -, rfl⟩ := hrun
  obtain ⟨hwithin, -, hall⟩ := (adds_encodeAll hbelow hts hbinders.2).trans
    (adds_formula (runs_formula hr) hbelow hbinders.1)
  have hnone : Declarations.Within default o.scope :=
    ⟨fun n s hn => (by cases hn), fun n sig hn => (by cases hn)⟩
  refine ⟨hwithin hnone, fun f hf x hx => hall x ?_⟩
  have hfree : (Env.ofScope o.scope).Free f.freeVars x := ⟨hx, by simp [Env.ofScope]⟩
  rcases List.mem_cons.mp hf with rfl | hf
  · exact .inr hfree
  · exact .inl ⟨f, hf, hfree⟩

/-- If the query of an obligation has no model, then the obligation is true in every interpretation of
the functions that are called. If none is called, then the obligation is true only if the query has no
model. No name that the solver needs is that of a variable. -/
theorem query_faithful (calls : List Function) (byZero : Operator → ℤ → ℤ) (hq : o.query = .ok q)
    (hty : ∀ f ∈ o.formulas, f.Typed .queries ⟨o.scope.vars, calls⟩)
    (hcalls : ∀ f g, (Scope.mk o.scope.vars calls).function? f = some g →
      o.scope.function? f = some g ∧ g.PassesSorts)
    (hclean : o.scope.Clean) (hbinders : ∀ f ∈ o.formulas, ∀ x ∈ f.binders, ¬ o.scope.Reserves x) :
    (¬ q.Satisfiable byZero → ∀ call, (Scope.mk o.scope.vars calls).TypesCalls call →
      o.Holds (.total call byZero)) ∧
    (calls = [] → (∀ x t, o.scope.type? x = some t → t.hasUnknown = false) →
      ∀ call, o.Holds (.total call byZero) ↔ ¬ q.Satisfiable byZero) := by
  have hcalls' := fun f g hg => (hcalls f g hg).1
  obtain ⟨hwithin, hdeclared⟩ := declarations_of_query hq hbinders
  have hsound : ¬ q.Satisfiable byZero → ∀ call, (Scope.mk o.scope.vars calls).TypesCalls call →
      o.Holds (.total call byZero) := by
    intro hunsat call hcall
    rw [holds_iff]
    intro ρ hρ hassumptions
    by_contra hgoal
    refine hunsat ⟨o.scope.model (.total call byZero) ρ, rfl, Scope.model_obeys hwithin hclean, ?_⟩
    exact (assertions_hold_iff hq hty hcalls' hbinders fun f _ =>
      Scope.model_renders hρ hclean hcalls hcall f.freeVars).mpr ⟨hassumptions, hgoal⟩
  refine ⟨hsound, ?_⟩
  rintro rfl hknown call
  refine ⟨?_, fun hunsat => hsound hunsat call fun f g args hg => by cases hg⟩
  rintro hholds ⟨M, rfl, hM, hassertions⟩
  obtain ⟨ρ, hρ, hrenders⟩ := hM.exists_renders hwithin hclean hknown
    (SortedSet.unions (o.formulas.map Formula.freeVars)) (fun x hx => by
      obtain ⟨_, hmem, hx⟩ := (SortedSet.mem_unions _ _).mp hx
      obtain ⟨f, hf, rfl⟩ := List.mem_map.mp hmem
      exact hdeclared f hf x hx) call
  obtain ⟨hassumptions, hgoal⟩ := (assertions_hold_iff hq hty hcalls' hbinders fun f hf =>
    hrenders.mono fun x hx => by simpa using ⟨f, hf, hx⟩).mp hassertions
  exact hgoal ((holds_iff o).mp hholds ρ hρ hassumptions)

end Obligation

/-! ### Queries with and without a model -/

/-- Names without a prime are never those of the solver. -/
theorem Scope.clean_of_names {Γ : Scope} (h : ∀ x ∈ Γ.vars.names, '\'' ∉ x.toList) : Γ.Clean := by
  intro n hn
  have hprime : '\'' ∈ n.toList := by
    cases hn with
    | part _ _ _ _ => exact prime_mem_partName _ _
    | function _ => exact prime_mem_functionName _
    | result s _ => exact prime_mem_partName _ _
  by_contra hne
  obtain ⟨t, ht⟩ := Option.ne_none_iff_exists'.mp hne
  exact h n ((NameMap.mem_names_iff _ _).mpr ⟨t, ht⟩) hprime

/-- A function of which only the types are of interest. -/
def Function.ofTypes (name : String) (inputs : List Ty) (output : Ty) : Function :=
  ⟨name, inputs.map fun t => ⟨"x", t, false, none⟩, output, .lit true, .lit true, .missing, [], none⟩

namespace Obligation

/-- An obligation of which only the formulas are of interest. -/
def ofFormulas (scope : Scope) (assumptions : List Formula) (goal : Formula) : Obligation :=
  ⟨0, "f", .assertion, none, "", assumptions, goal, scope⟩

/-- `t.0 == g(n)` implies `g(n) == t.0`. -/
def flipped : Obligation :=
  let element : Value := .place (.elem .tuple "t" (.int 0) none) none
  let call : Value := .call "g" [.var "n"] none
  ofFormulas ⟨.ofList [("n", .i32), ("t", .tuple [.i32, .bool])], [.ofTypes "g" [.i32] .i32]⟩
    [.equal (.value element) (.value call)] (.equal (.value call) (.value element))

def flippedQuery : Query :=
  let element : Term := .select (.const "t'Int") (.int 0)
  let call : Term := .app "g'fn" [.const "n"]
  ⟨flipped.print, ⟨.ofList [("n", .int), ("t'Bool", .array .bool), ("t'Int", .array .int)],
    .ofList [("g'fn", ⟨[.int], .int⟩)]⟩, [.eq element call, .not (.eq call element)]⟩

theorem not_satisfiable_flippedQuery (byZero : Operator → ℤ → ℤ) :
    ¬ flippedQuery.Satisfiable byZero := by
  rintro ⟨M, -, -, hM⟩
  simp only [flippedQuery, List.forall_mem_cons] at hM
  have heq := (Term.Decides.eq _ _).holds_iff.mp hM.1
  exact (Term.Decides.eq _ _).not.holds_iff.mp hM.2.1 heq.symm

theorem flipped_holds : flipped.query = .ok flippedQuery ∧
    flipped.Holds (.total (fun _ _ => .int 0) fun _ _ => 0) := by
  have hq : flipped.query = .ok flippedQuery := by cbv
  have helement : (Expr.value (.place (.elem .tuple "t" (.int 0) none) none)).Typed .queries
      flipped.scope .i32 := ⟨.tuple [.i32, .bool], [.i32, .bool], 0, by cbv, by cbv, by cbv, rfl⟩
  have hcall : (Expr.value (.call "g" [.var "n"] none)).Typed .queries flipped.scope .i32 :=
    ⟨.ofTypes "g" [.i32] .i32, by cbv, rfl, .i32, [], rfl, ⟨.i32, by cbv, rfl⟩, rfl⟩
  refine ⟨hq, (query_faithful flipped.scope.functions _ hq ?typed ?called ?clean ?binders).1
    (not_satisfiable_flippedQuery _) _ fun f g args hg _ => ?call⟩
  case typed =>
    simp only [formulas, flipped, ofFormulas, List.forall_mem_cons, List.not_mem_nil, false_imp_iff,
      implies_true, and_true]
    exact ⟨⟨.i32, .inr (.inl rfl), hcall, helement⟩, ⟨.i32, .inr (.inl rfl), helement, hcall⟩⟩
  case called =>
    intro f g hg
    obtain rfl := List.mem_singleton.mp (List.mem_of_find?_eq_some hg)
    exact ⟨hg, by simp [Function.PassesSorts, Function.inputTypes, Function.ofTypes, Ty.bareAll, Ty.bare]⟩
  case clean => exact Scope.clean_of_names (by decide +kernel)
  case binders =>
    have hnone : ∀ f ∈ flipped.formulas, f.binders = [] := by decide +kernel
    exact fun f hf x hx => by simp [hnone f hf] at hx
  case call =>
    obtain rfl := List.mem_singleton.mp (List.mem_of_find?_eq_some hg)
    exact ⟨0, rfl⟩

/-- Whether the query of a well-typed obligation without quantifiers has no model though the obligation
is not true. -/
def Misled (o : Obligation) : Prop :=
  ∃ q, o.query = .ok q ∧ (∀ f ∈ o.formulas, f.Typed .queries o.scope ∧ f.binders = []) ∧
    (∀ byZero, ¬ q.Satisfiable byZero) ∧
      ∃ call, o.scope.TypesCalls call ∧ ¬ o.Holds (.total call fun _ _ => 0)

/-- `t.0 == t'Int[0]`, where `t'Int` is also the name of a part of `t`. -/
def shared : Obligation :=
  ofFormulas ⟨.ofList [("t", .tuple [.i32, .i32]), ("t'Int", .array .i32 2)], []⟩ []
    (.equal (.value (.place (.elem .tuple "t" (.int 0) none) none))
      (.value (.place (.elem .array "t'Int" (.int 0) none) none)))

/-- A tuple of ones and an array of zeros. -/
def sharedValues : Valuation
  | "t" => .tuple [.int 1, .int 1]
  | _ => .array 2 fun _ => .int 0

theorem misled_shared : shared.Misled := by
  refine ⟨⟨shared.print, ⟨.ofList [("t'Int", .array .int)], .empty⟩,
    [.not (.eq (.select (.const "t'Int") (.int 0)) (.select (.const "t'Int") (.int 0)))]⟩, by cbv,
    ?_, ?_, fun _ _ => .unit, fun f g args hg => (nomatch hg), fun h => ?_⟩
  · intro f hf
    obtain rfl := List.mem_singleton.mp hf
    refine ⟨⟨.i32, .inr (.inl rfl), ?_, ?_⟩, by decide +kernel⟩
    · exact ⟨.tuple [.i32, .i32], [.i32, .i32], 0, by cbv, by cbv, by cbv, rfl⟩
    · exact ⟨.array .i32 2, 2, by cbv, by cbv, trivial, rfl, rfl⟩
  · rintro byZero ⟨M, -, -, hM⟩
    exact (Term.Decides.eq _ _).not.holds_iff.mp (hM _ List.mem_cons_self) rfl
  · have hfits : sharedValues.Fits shared.scope.vars := by
      intro x t ht
      have hmem := NameMap.mem_of_find ht
      simp only [shared, ofFormulas, show (NameMap.ofList [("t", Ty.tuple [.i32, .i32]),
        ("t'Int", .array .i32 2)]).entries = [("t", .tuple [.i32, .i32]), ("t'Int", .array .i32 2)]
        by cbv, List.mem_cons, Prod.mk.injEq, List.not_mem_nil, or_false] at hmem
      rcases hmem with ⟨rfl, rfl⟩ | ⟨rfl, rfl⟩
      · exact ⟨_, rfl, _, _, rfl, ⟨1, rfl⟩, _, _, rfl, ⟨1, rfl⟩, rfl⟩
      · exact ⟨_, rfl, fun _ => ⟨0, rfl⟩⟩
    have hgoal := (holds_iff shared).mp h sharedValues hfits (by simp [shared, ofFormulas])
    simp [shared, ofFormulas, Formula.Holds, Expr.eval, Value.eval, Place.eval, Value.int, Val.toInt,
      Val.get, sharedValues] at hgoal

/-- `f(g()) == f(h())`, where what is passed to `f` has no sort. -/
def nested : Obligation :=
  let pair : Ty := .tuple [.tuple [.i32, .i32]]
  ofFormulas ⟨.empty, [.ofTypes "f" [pair] .i32, .ofTypes "g" [] pair, .ofTypes "h" [] pair]⟩ []
    (.equal (.value (.call "f" [.call "g" [] none] none)) (.value (.call "f" [.call "h" [] none] none)))

/-- What the functions of `nested` give. -/
def nestedCall : String → List Val → Val
  | "g", _ => .tuple [.tuple [.int 0, .int 0]]
  | "h", _ => .tuple [.tuple [.int 1, .int 1]]
  | _, args => .int ((args.headD .unit).get 0 |>.get 0).toInt

theorem misled_nested : nested.Misled := by
  refine ⟨⟨nested.print, ⟨.empty, .ofList [("f'fn", ⟨[], .int⟩)]⟩,
    [.not (.eq (.app "f'fn" []) (.app "f'fn" []))]⟩, by cbv, ?_, ?_, nestedCall, ?_, fun h => ?_⟩
  · intro f hf
    obtain rfl := List.mem_singleton.mp hf
    have hpass : ∀ x, nested.scope.function? x = some (.ofTypes x [] (.tuple [.tuple [.i32, .i32]])) →
        (Expr.value (.call "f" [.call x [] none] none)).Typed .queries nested.scope .i32 :=
      fun x hx => ⟨.ofTypes "f" [.tuple [.tuple [.i32, .i32]]] .i32, by cbv, rfl, _, [], rfl,
        ⟨_, hx, rfl, rfl⟩, rfl⟩
    exact ⟨⟨.i32, .inr (.inl rfl), hpass "g" (by cbv), hpass "h" (by cbv)⟩, by decide +kernel⟩
  · rintro byZero ⟨M, -, -, hM⟩
    exact (Term.Decides.eq _ _).not.holds_iff.mp (hM _ List.mem_cons_self) rfl
  · intro f g args hg _
    have hmem := List.mem_of_find?_eq_some hg
    obtain rfl := Scope.name_of_function? hg
    simp only [nested, ofFormulas, List.mem_cons, List.not_mem_nil, or_false] at hmem
    rcases hmem with rfl | rfl | rfl
    · exact ⟨_, rfl⟩
    · exact ⟨_, rfl, _, _, rfl, ⟨_, rfl, _, _, rfl, ⟨0, rfl⟩, _, _, rfl, ⟨0, rfl⟩, rfl⟩, rfl⟩
    · exact ⟨_, rfl, _, _, rfl, ⟨_, rfl, _, _, rfl, ⟨1, rfl⟩, _, _, rfl, ⟨1, rfl⟩, rfl⟩, rfl⟩
  · have hgoal := (holds_iff nested).mp h (fun _ => .unit) (fun x t ht => by cases ht)
      (by simp [nested, ofFormulas])
    simp [nested, ofFormulas, Formula.Holds, Expr.eval, Value.eval, Value.evalAll, Interp.total,
      nestedCall, Val.get, Val.toInt] at hgoal

/-- A query can have no model though its obligation is not true, where a variable has the name of a part
of a tuple, and where a tuple is passed whose elements have no sort. -/
theorem exists_misled : (∃ o, Misled o ∧ o.scope.functions = []) ∧ ∃ o, Misled o ∧ o.scope.Clean :=
  ⟨⟨shared, misled_shared, rfl⟩, nested, misled_nested, Scope.clean_of_names (by decide +kernel)⟩

end Obligation

end Verdict
