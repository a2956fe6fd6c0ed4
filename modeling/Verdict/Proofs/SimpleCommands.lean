import Verdict.Proofs.Changes

/-! # Commands without blocks

Three things are proved of each part of a body: that the state after it is well-typed and knows at least
what the state before knows, that a run of it leads from a store that matches the state before to one
that matches the state after, and, for bodies without loops and calls, that its obligations are true for
every meaning of the constants under which no run goes wrong. This module proves them of commands
without blocks. -/

namespace Verdict

namespace Generation

open GenM

/-! ### What is proved -/

/-- Whether a part of a body leaves a well-typed state with at least the facts before it, which its
obligations assume. -/
structure Reaches (R : Rules) (vars : NameMap Ty) (s s' : SymState) (g g' : Generator) : Prop where
  grows : g.Grows g'
  known : g'.Known
  typed : s'.Typed R vars g'
  facts : ∀ f ∈ s.facts, f ∈ s'.facts
  adds : AddsUnder s g g'

/-- Whether runs lead from stores that match a first state to stores that match a second one. -/
def Tracks (R : Rules) (M : Machine) (vars vars' : NameMap Ty) (s s' : SymState) (g g' : Generator)
    (exec : Config → Ending Config) : Prop :=
  ∀ (ρ : Valuation) (k : Config), s.Matches M.interp vars g ρ k.store →
    (exec k).Ensures R.unitLiterals fun k' =>
      ∃ ρ', ρ.AgreeFor ρ' g.symbols ∧ s'.Matches M.interp vars' g' ρ' k'.store

/-- Whether obligations say no more than runs need, for one meaning of the constants. -/
structure Exact (R : Rules) (I : Interp) (gF : Generator) (ρ : Valuation) : Prop where
  calls : R.calls = []
  lengths : ∀ n, R.bounds.lengths n → n < 2 ^ 31
  regular : I.Regular R.calls
  alikes : I.Equates gF.alikes
  fits : ρ.Fits gF.symbols

/-- Whether, for one meaning of the constants, the obligations are true if no run goes wrong. Then either
a fact is false or some runs end in a store that matches the state after them. They can be continued
with any values for uninitialised variables. -/
def Realizes (I : Interp) (ρ : Valuation) (vars vars' : NameMap Ty) (s s' : SymState)
    (g g' : Generator) (exec : Config → Ending Config) : Prop :=
  ∀ σ, s.Matches I vars g ρ σ → (∀ choices, (exec ⟨σ, choices⟩).Safe) →
    Adds (Obligation.HoldsAt I ρ) g g' ∧
      ((∃ f ∈ s'.facts, ¬ f.Holds I ρ) ∨
        ∃ σ', s'.Matches I vars' g' ρ σ' ∧
          ∀ choices', ∃ choices, exec ⟨σ, choices⟩ = .done ⟨σ', choices'⟩)

/-- Whether all three hold of a part of a body. -/
structure Simulates (R : Rules) (vars vars' : NameMap Ty) (s s' : SymState) (g g' : Generator)
    (exec : Machine → Config → Ending Config) : Prop extends Reaches R vars' s s' g g' where
  tracks : ∀ {M : Machine} {gF : Generator}, Sound R M gF → g'.Grows gF →
    Tracks R M vars vars' s s' g g' (exec M)
  realizes : ∀ {I : Interp} {gF : Generator} {ρ : Valuation}, Exact R I gF ρ → g'.Grows gF →
    Realizes I ρ vars vars' s s' g g' (exec (.ofInterp I))

/-- Whether a command is simulated that changes no frame and, without calls, adds no facts. -/
abbrev SimulatesPlainly (R : Rules) (vars vars' : NameMap Ty) (s s' : SymState) (g g' : Generator)
    (exec : Machine → Config → Ending Config) : Prop :=
  s'.frame = s.frame ∧ (R.calls = [] → s'.facts = s.facts) ∧ Simulates R vars vars' s s' g g' exec

variable {R : Rules} {ctx : GenContext} {vars vars' : NameMap Ty} {g g' g'' : Generator} {s s' s'' : SymState}
  {subject : Subject} {M : Machine} {gF : Generator} {I : Interp} {ρ : Valuation}
  {ds : List Declaration}

theorem Reaches.trans (h : Reaches R vars s s' g g') (h' : Reaches R vars' s' s'' g' g'') :
    Reaches R vars' s s'' g g'' := by
  refine ⟨h.grows.trans h'.grows, h'.known, h'.typed, fun f hf => h'.facts f (h.facts f hf),
    h.adds.trans (h'.adds.of_facts h.facts)⟩

theorem Reaches.mono (h : Reaches R vars s s' g g')
    (hvars : ∀ x t, vars'.get? x = some t → vars.get? x = some t) : Reaches R vars' s s' g g' :=
  ⟨h.grows, h.known, h.typed.mono hvars, h.facts, h.adds⟩

theorem Evaluated.reaches (h : Evaluated R vars s s' g g') (hg : g.Known) :
    Reaches R vars s s' g g' := by
  refine ⟨h.grows, fun x t hx => hg x t ?_, h.typed, h.facts, h.adds⟩
  rwa [h.symbols] at hx

theorem Exact.of_grows (h : Exact R I gF ρ) (hg : g.Grows gF) : I.Equates g.alikes :=
  hg.equates h.alikes

theorem Exact.fits_of_grows (h : Exact R I gF ρ) (hg : g.Grows gF) : ρ.Fits g.symbols :=
  fun x t hx => h.fits x t (hg.symbols x t hx)

theorem Conditions.matches_of_calls {nodes : List Node} {D : Interp → Valuation → Prop} {σ : Valuation}
    (h : Conditions R vars nodes D s s' g g') (hcalls : R.calls = []) (hm : s.Matches I vars g ρ σ) :
    s'.Matches I vars g' ρ σ := by
  rw [h.callFree hcalls]
  exact hm.withSymbols h.symbols

/-! ### Declarations and assignments -/

variable {e : Scoping.Env} {o : Origin} {v : Value}

theorem simulates_declare {d : Declaration} (fuel : ℕ) (hs : s.Typed R e.scope.vars g) (hg : g.Known)
    (hwild : e.vars.get? "_" = none) (hd : d.type.hasUnknown = false)
    (h : Gives (run ctx s subject (.declare d)) g s' g') :
    s'.frame = s.frame ∧ s'.facts = s.facts ∧
      Simulates R e.scope.vars (Scoping.declare e d.name d.type d.mutable).scope.vars s s' g g'
        fun M => (Command.declare d).exec M fuel := by
  obtain ⟨v, g1, h1, h2⟩ := h.bind
  obtain ⟨y, rfl, hy, hsym, halikes, hobl⟩ := of_constant h1
  obtain ⟨rfl, rfl⟩ := gives_pure h2
  have hgrow := grows_of_insert hy hsym halikes hobl
  have hadj := Scoping.adjoins_declare hwild d.name d.type d.mutable
  refine ⟨rfl, rfl, ⟨hgrow, known_of_insert hg hsym hd, typed_fresh hsym hadj hs hgrow,
    fun _ hf => hf, adds_of_eq hobl⟩, ?_, ?_⟩
  · intro M gF hF hgF ρ k hm
    have ha := Ty.has_pick hd (k.choices 0)
    exact ⟨_, agreeFor_update ρ hy _, matches_fresh hsym hadj hs hy hm ha⟩
  · intro I gF ρ hE hgF σ hm _
    refine ⟨adds_of_eq hobl, .inr ⟨Function.update σ d.name (ρ y), ?_, fun choices' => ?_⟩⟩
    · have hm' := hm.set (v := .var y) hadj
      refine ⟨hE.fits_of_grows hgF, ?_, hm'.facts⟩
      simpa [Value.var, Value.eval, Place.eval] using hm'.values
    · have hfits := hE.fits_of_grows hgF y d.type (by simp [hsym])
      refine ⟨fun n => Nat.casesOn n (ρ y) choices', ?_⟩
      change Ending.done (Config.mk (Function.update σ d.name (d.type.pick (ρ y))) choices') = _
      rw [hfits.pick]

/-- A tuple is evaluated before its elements are bound. -/
theorem of_destructure (h : Gives (destructure ctx s subject ds v) g s' g') :
    ∃ w s1 g1, Gives (value ctx s subject v) g (w, s1) g1 ∧
      Gives (bindElements s1 w 0 ds) g1 s' g' := by
  obtain ⟨⟨w, s1⟩, g1, h1, h2⟩ := h.bind
  obtain ⟨g2, g3, h3, h4⟩ := h2.bind
  cases h3
  obtain ⟨t, g4, h5, h6⟩ := h4.bind
  obtain ⟨-, rfl⟩ := h5.ofFault
  split at h6
  · split_ifs at h6
    · exact ⟨w, s1, g4, h1, h6⟩
    · exact absurd h6 not_gives_fault
  · exact absurd h6 not_gives_fault

theorem writes_of_assigns {a : Assignment} (h : R.Assigns e a) (hw : Scoping.writes e o a.target = []) :
    Writes R e.scope.vars a := by
  obtain ⟨t, hv, hp⟩ := h
  refine ⟨t, hv, ?_⟩
  match hp' : a.target with
  | .wildcard o' => exact ⟨.inl ⟨o', rfl⟩, fun _ _ _ _ => trivial⟩
  | .name x o' =>
    rw [hp'] at hp hw
    refine ⟨.inr ⟨?_, hp⟩, fun _ _ _ _ => trivial⟩
    rintro hx
    simp only [Place.base] at hx
    simp [Scoping.writes, Scoping.readsPlace, Scoping.readPlace, Place.base, hx] at hw
  | .elem shape x i o' =>
    rw [hp'] at hp hw
    refine ⟨.inr ⟨?_, hp.1⟩, fun hunit ht => ?_⟩
    · rintro hx
      simp only [Place.base] at hx
      simp [Scoping.writes, Scoping.readsPlace, Scoping.readPlace, Place.base, hx] at hw
    · obtain ⟨_, ho⟩ := hp.2 hunit ht
      cases ho

section Evaluators

variable (hs : s.Typed R e.scope.vars g) (hg : g.Known) (hR : R.Suits ctx.functions)
  (hsees : Sees ctx R e.scope.vars s)
include hs hg hR hsees

/-- A value is evaluated, and the store is changed in some way that depends on it. -/
theorem simulates_store {t : Ty} {w : Value} {s1 : SymState} {g1 : Generator}
    {u : Valuation → Val → Valuation} (hv : R.Accepts e v t) (h1 : Gives (value ctx s subject v) g (w, s1) g1)
    (hup : Updates s1 s' g1 g') (hsym : g'.symbols = g1.symbols) (hs' : s'.Typed R vars' g')
    (hm' : ∀ {I : Interp} {ρ σ : Valuation}, I.Regular R.calls → I.Equates g'.alikes →
      s1.Matches I e.scope.vars g1 ρ σ → s'.Matches I vars' g' ρ (u σ (w.eval I ρ))) :
    SimulatesPlainly R e.scope.vars vars' s s' g g' fun M k => do
      let a ← M.value k.store v
      return { k with store := u k.store a } := by
  obtain ⟨hc, -, heval⟩ := of_value hs hR hsees hv.1 h1
  have hr := hc.reaches hg
  have hknown : g'.Known := fun x t hx => hr.known x t (hsym ▸ hx)
  refine ⟨hup.frame.trans hc.frame, fun hcalls => ?_, ⟨hr.grows.trans hup.grows, hknown, hs',
    fun f hf => hup.facts ▸ hr.facts f hf, hr.adds.trans (adds_of_eq hup.obligations)⟩, ?_, ?_⟩
  · rw [hup.facts, hc.callFree hcalls]
  · intro M gF hF hgF ρ k hm
    have hgF1 := hup.grows.trans hgF
    simp only [Ending.ensures_bind]
    refine Machine.ensures_evaluate fun hans => ?_
    obtain ⟨hdef, hm1⟩ := hc.sound hF hgF1 hm hans
    refine ⟨hv.defined hdef, ρ, fun _ _ _ => rfl, ?_⟩
    rw [← heval hF.regular (hF.of_grows hgF1) hm]
    exact hm' hF.regular (hF.of_grows hgF) hm1
  · intro I gF ρ hE hgF σ hm hsafe
    have hsafe0 := hsafe fun _ => .unit
    simp only [Ending.Safe, Ending.ensures_bind] at hsafe0
    obtain ⟨hdef, -, hrun⟩ := Machine.of_ensures_evaluate hsafe0
    have ha := hE.of_grows (hup.grows.trans hgF)
    have hadds := hc.complete hE.calls hE.lengths hE.regular ha hm (.inr hdef)
    refine ⟨hadds.trans (adds_of_eq hup.obligations),
      .inr ⟨u σ (v.eval I σ), ?_, fun choices' => ⟨choices', ?_⟩⟩⟩
    · rw [← heval hE.regular ha hm]
      exact hm' hE.regular (hE.of_grows hgF) (hc.matches_of_calls hE.calls hm)
    · simp only [Machine.value]
      rw [hrun]
      rfl

theorem simulates_bind {d : Declaration} (fuel : ℕ) (hwild : e.vars.get? "_" = none)
    (hv : R.Accepts e v d.type.bare) (h : Gives (run ctx s subject (.bind d v)) g s' g') :
    SimulatesPlainly R e.scope.vars (Scoping.declare e d.name d.type d.mutable).scope.vars s s' g g'
      fun M => (Command.bind d v).exec M fuel := by
  obtain ⟨⟨w, s1⟩, g1, h1, h2⟩ := h.bind
  obtain ⟨rfl, rfl⟩ := gives_pure h2
  obtain ⟨hc, hwt, -⟩ := of_value hs hR hsees hv.1 h1
  have hadj := Scoping.adjoins_declare hwild d.name d.type d.mutable
  have hup : Updates s1 (s1.set d.name w) g' g' := ⟨rfl, rfl, .refl _, rfl⟩
  simpa only [Command.exec] using simulates_store hs hg hR hsees (u := fun σ a => Function.update σ d.name a)
    hv h1 hup rfl (hc.typed.set hadj hwt) fun _ _ hm => hm.set hadj

theorem simulates_bindTuple {ts : List Ty} (fuel : ℕ) (hwild : e.vars.get? "_" = none)
    (hv : R.Accepts e v (.tuple ts)) (hds : Declaration.Match ds ts)
    (h : Gives (run ctx s subject (.bindTuple ds v o)) g s' g') :
    SimulatesPlainly R e.scope.vars (Scoping.declareAll o e ds).1.scope.vars s s' g g'
      fun M => (Command.bindTuple ds v o).exec M fuel := by
  obtain ⟨w, s1, g1, h1, h2⟩ := of_destructure h
  obtain ⟨hc, hwt, -⟩ := of_value hs hR hsees hv.1 h1
  obtain ⟨hup, hsym, hs', hm'⟩ := of_bindElements (o := o) hc.typed hwild hwt
    (fun j d hj hd => by simpa using hds.2.2 j d hj hd) (by simpa using hds.2.1) h2
  simpa only [Command.exec] using simulates_store hs hg hR hsees (u := fun σ a => σ.bindElements a 0 ds)
    hv h1 hup hsym hs' hm'

theorem simulates_assign {as : List Assignment} (has : ∀ a ∈ as, Writes R e.scope.vars a)
    (h : Gives (assign ctx s subject as) g s' g') :
    SimulatesPlainly R e.scope.vars e.scope.vars s s' g g' fun M k => M.assign k as := by
  obtain ⟨hframe, hsym, hgrow, hs', hfacts, hadds, hsound, hfree, hcomplete⟩ :=
    of_assign hs hR hsees has h
  have hknown : g'.Known := fun x t hx => hg x t (hsym ▸ hx)
  refine ⟨hframe, hfree, ⟨hgrow, hknown, hs', hfacts, hadds⟩, ?_, ?_⟩
  · intro M gF hF hgF ρ k hm
    exact (hsound hF hgF hm).mono fun k' hm' => ⟨ρ, fun _ _ _ => rfl, hm'⟩
  · intro I gF ρ hE hgF σ hm hsafe
    obtain ⟨hadds', σ', hm', hrun⟩ := hcomplete hE.calls hE.lengths hE.regular (hE.of_grows hgF)
      (k := ⟨σ, fun _ => .unit⟩) hm (hsafe _)
    exact ⟨hadds', .inr ⟨σ', hm', fun choices' => ⟨choices', hrun choices'⟩⟩⟩

/-! ### Assertions and assumptions -/

theorem simulates_check {f : Formula} {kind : ObligationKind} (violation : Violation)
    (hf : f.Typed R.bounds (R.scope e)) (h : Gives (check ctx s kind subject f) g s' g') :
    SimulatesPlainly R e.scope.vars e.scope.vars s s' g g' fun M k => do
      M.check k.store violation f
      return k := by
  have hc := of_check hs hR hsees hf h
  refine ⟨hc.frame, fun hcalls => by rw [hc.callFree hcalls], hc.reaches hg, ?_, ?_⟩
  · intro M gF hF hgF ρ k hm
    simp only [Ending.ensures_bind]
    refine Machine.ensures_check fun hans => ?_
    obtain ⟨hdef, hm1⟩ := hc.sound hF hgF hm hans
    exact ⟨hdef, ρ, fun _ _ _ => rfl, hm1⟩
  · intro I gF ρ hE hgF σ hm hsafe
    have hsafe0 := hsafe fun _ => .unit
    simp only [Ending.Safe, Ending.ensures_bind] at hsafe0
    obtain ⟨hdef, -, hrun⟩ := Machine.of_ensures_check hsafe0
    refine ⟨hc.complete hE.calls hE.lengths hE.regular (hE.of_grows hgF) hm hdef,
      .inr ⟨σ, ?_, fun choices' => ⟨choices', ?_⟩⟩⟩
    · exact hc.matches_of_calls hE.calls hm
    · dsimp only
      rw [hrun]
      rfl

theorem simulates_assume {f : Formula} (fuel : ℕ) (hf : f.Typed R.bounds (R.scope e))
    (h : Gives (run ctx s subject (.assume f o)) g s' g') :
    s'.frame = s.frame ∧
      Simulates R e.scope.vars e.scope.vars s s' g g' fun M => (Command.assume f o).exec M fuel := by
  obtain ⟨⟨f', s1⟩, g1, h1, h2⟩ := h.bind
  obtain ⟨rfl, rfl⟩ := gives_pure h2
  obtain ⟨hc, hft, hmean⟩ := of_formula hs hR hsees hf h1
  have hr := hc.reaches hg
  refine ⟨(SymState.assume_frame _ _).trans hc.frame, ⟨hr.grows, hr.known, hr.typed.assume hft,
    fun f hf => SymState.mem_facts_assume (hr.facts f hf), hr.adds⟩, ?_, ?_⟩
  · intro M gF hF hgF ρ k hm
    simp only [Command.exec, Ending.ensures_bind]
    refine Machine.ensures_assume fun hans => ?_
    obtain ⟨hdef, hm1⟩ := hc.sound hF hgF hm hans
    refine ⟨fun _ => hdef, fun hholds => ⟨ρ, fun _ _ _ => rfl, hm1.assume ?_⟩⟩
    exact (hmean hF.regular (hF.of_grows hgF) hm).mpr hholds
  · intro I gF ρ hE hgF σ hm hsafe
    have hsafe0 := hsafe fun _ => .unit
    simp only [Ending.Safe, Command.exec, Ending.ensures_bind] at hsafe0
    obtain ⟨hdef, hrun⟩ := Machine.of_ensures_assume hsafe0
    have ha := hE.of_grows hgF
    have hm1 := hc.matches_of_calls hE.calls hm
    refine ⟨hc.complete hE.calls hE.lengths hE.regular ha hm hdef, ?_⟩
    have hiff := hmean hE.regular ha hm
    by_cases hholds : f.Holds I σ
    · refine .inr ⟨σ, hm1.assume (hiff.mpr hholds), fun choices' => ⟨choices', ?_⟩⟩
      simp only [Command.exec, (hrun hholds).2]
      rfl
    · refine .inl ⟨f', SymState.self_mem_facts_assume ?_, hiff.not.mpr hholds⟩
      exact fun htrue => hiff.not.mpr hholds (Formula.holds_of_isTrue htrue)

end Evaluators

theorem simulates_noop (fuel : ℕ) (hs : s.Typed R vars g) (hg : g.Known) :
    Simulates R vars vars s s g g fun M => (Command.noop o).exec M fuel := by
  refine ⟨⟨.refl g, hg, hs, fun _ hf => hf, adds_of_eq rfl⟩, ?_, ?_⟩
  · intro M gF hF hgF ρ k hm
    exact ⟨ρ, fun _ _ _ => rfl, hm⟩
  · intro I gF ρ hE hgF σ hm _
    refine ⟨adds_of_eq rfl, .inr ⟨σ, hm, fun choices' => ⟨choices', ?_⟩⟩⟩
    simp only [Command.exec]

/-! ### All commands without blocks -/

end Generation

/-- Whether a command has no blocks. -/
def Command.IsSimple : Command → Prop
  | .cond _ _ | .forRange _ _ _ _ _ _ | .whileLoop _ _ _ _ _ => False
  | _ => True

def Command.IsAssume : Command → Prop
  | .assume _ _ => True
  | _ => False

namespace Generation

open GenM

variable {R : Rules} {ctx : GenContext} {g g' : Generator} {s s' : SymState} {subject : Subject}

theorem simulates_simple {c : Command} {e : Scoping.Env} {frame : Frame} (fuel : ℕ)
    (hc : c.IsSimple) (hR : R.Suits ctx.functions) (hcov : s.frame.Covers ctx.functions e)
    (hs : s.Typed R e.scope.vars g) (hg : g.Known) (hwt : c.WellTyped R e)
    (hfaults : (Scoping.command e c).2 = []) (hstep : s.frame.step c = .ok frame)
    (h : Gives (run ctx s subject c) g s' g') :
    s'.frame = s.frame ∧ (R.calls = [] → ¬ c.IsAssume → s'.facts = s.facts) ∧
      Simulates R e.scope.vars (Scoping.command e c).1.scope.vars s s' g g'
        fun M => c.exec M fuel := by
  have hsees := sees_of_covers hcov hR hcov.types
  have hwild := hcov.wildcard
  have hplain : (SimulatesPlainly R e.scope.vars (Scoping.command e c).1.scope.vars s s' g g'
      fun M => c.exec M fuel) → _ :=
    And.imp_right (And.imp_left fun hfacts hcalls (_ : ¬ c.IsAssume) => hfacts hcalls)
  cases c with
  | declare d =>
    have hd : d.type.hasUnknown = false := (Frame.of_declare hstep).1
    obtain ⟨hframe, hfacts, hsim⟩ := simulates_declare fuel hs hg hwild hd h
    exact ⟨hframe, fun _ _ => hfacts, hsim⟩
  | bind d v => exact hplain (simulates_bind hs hg hR hsees fuel hwild hwt h)
  | bindTuple ds v o =>
    obtain ⟨ts, hv, hds⟩ := hwt
    exact hplain (simulates_bindTuple hs hg hR hsees fuel hwild hv hds h)
  | assign a =>
    simp only [Scoping.command, List.append_eq_nil_iff] at hfaults
    have has : ∀ b ∈ [a], Writes R e.scope.vars b := by
      intro b hb
      obtain rfl := List.mem_singleton.mp hb
      exact writes_of_assigns hwt hfaults.2
    refine hplain ?_
    simpa only [Command.exec, Scoping.command] using simulates_assign hs hg hR hsees has h
  | assignAll as o =>
    simp only [Scoping.command, List.append_eq_nil_iff, List.flatMap_eq_nil_iff] at hfaults
    have has : ∀ b ∈ as, Writes R e.scope.vars b := fun b hb =>
      writes_of_assigns (hwt b hb) (hfaults.2 b hb)
    refine hplain ?_
    simpa only [Command.exec, Scoping.command] using simulates_assign hs hg hR hsees has h
  | assert f o | invariant f o =>
    refine hplain ?_
    simpa only [Command.exec, Scoping.command] using simulates_check hs hg hR hsees _ hwt h
  | assume f o =>
    obtain ⟨hframe, hsim⟩ := simulates_assume hs hg hR hsees fuel hwt h
    exact ⟨hframe, fun _ hno => absurd trivial hno, hsim⟩
  | noop o =>
    obtain ⟨rfl, rfl⟩ := gives_pure h
    exact ⟨rfl, fun _ _ => rfl, simulates_noop fuel hs hg⟩
  | cond bs o | forRange i lo hi inv body o | whileLoop c inv variant body o => exact hc.elim

end Generation

end Verdict
