import Verdict.Proofs.Closedness

/-! # Symbolic constants are new

A constant gets the name of its variable or a primed one, and the same variable can be declared in one branch
after another. Still its name is new wherever it is made: no input and no constant before has it, and no
value, fact or obligation mentions it. So the types of constants never change, and at the end all obligations
have them in common (`Program.constants_fresh`). The searches for new names, here and below binders, go on until
they find one, and they always do (`name_searches_stop`).

The invariant links the log of a run to the constants of the generator: they are the inputs and the constants
in the log, and nothing in the log mentions any other name. -/

namespace Verdict

open Scoping (Env)

/-! ### New names -/

/-- Below a binder of `x` a new name is searched from `x'1` on, and for a constant from the first primed name
that has not been tried. Neither search has a bound, and both stop: the one at a name that is free neither in
the body nor in a replacement, the other at one that no constant has. -/
theorem name_searches_stop :
    (∀ (m : Substitution) (x : String) (f : Formula), ∃ i, 1 ≤ i ∧
      freshName x (f.freeVars.union m.freeVars) = primed x i ∧
      StopsAt x (f.freeVars.union m.freeVars).contains 1 i ∧ primed x i ∉ f.freeVars.members ∧
      ∀ e ∈ m.entries, primed x i ∉ e.2.freeVars.members) ∧
    ∀ (g : Generator) (x : String) (t : Ty) (isPrimed : Bool), ∃ y g',
      (Generation.constant x t isPrimed).run g = .ok (.var y, g') ∧ g.symbols.get? y = none ∧
      (isPrimed = false ∧ y = x ∨ ∃ i, 1 ≤ i ∧ y = primed x i ∧
        StopsAt x g.symbols.contains ((g.counters.get? x).getD 0 + 1) i) := by
  refine ⟨fun m x f => ?_, fun g x t isPrimed => ?_⟩
  · obtain ⟨i, hi, hstop⟩ := freshName_stops x (f.freeVars.union m.freeVars)
    have hnew := freshName_not_mem x (f.freeVars.union m.freeVars)
    rw [hi, SortedSet.mem_union, not_or] at hnew
    refine ⟨i, hstop.le, hi, hstop, hnew.1, fun e he hfree => hnew.2 ?_⟩
    exact (SortedSet.mem_unions _ _).mpr ⟨_, List.mem_map_of_mem he, hfree⟩
  · obtain ⟨y, g', hrun, hnew, hname, -⟩ := Generation.run_constant x t isPrimed g
    refine ⟨y, g', hrun, hnew, hname.imp_right ?_⟩
    rintro ⟨i, hi, hstop⟩
    exact ⟨i, (Nat.le_add_left 1 _).trans hstop.le, hi, hstop⟩

/-! ### What is mentioned -/

/-- Whether the values and facts of a state mention only some names. Values count also where no command can
read them. -/
structure SymState.In (s : SymState) (K : String → Prop) : Prop where
  values : ∀ x v, s.values.get? x = some v → v.freeVars.In K
  facts : ∀ f ∈ s.facts, f.freeVars.In K

theorem SymState.In.mono {s : SymState} {K L : String → Prop} (h : s.In K) (hKL : ∀ x, K x → L x) :
    s.In L :=
  ⟨fun x v hv => (h.values x v hv).mono hKL, fun f hf => (h.facts f hf).mono hKL⟩

/-- Whether an event mentions only some names. -/
def Event.In (K : String → Prop) : Event → Prop
  | .state s => s.In K
  | .value v | .constant v _ _ => v.freeVars.In K
  | .expr e => e.freeVars.In K
  | .formula f => f.freeVars.In K

theorem Event.In.mono {e : Event} {K L : String → Prop} (h : e.In K) (hKL : ∀ x, K x → L x) : e.In L := by
  cases e with
  | state s => exact SymState.In.mono h hKL
  | value v | expr e | formula f | constant v t g => exact SortedSet.In.mono h hKL

variable {functions : List Function} {y : String}

/-- What keeps to closedness mentions only constants. -/
theorem Event.in_of_keeps {types : NameMap Ty} {e : Event}
    (h : (Generation.closedness functions).KeepsEvent types e) : e.In types.Has := by
  cases e with
  | state s => exact ⟨h.1, h.2⟩
  | value v | expr e | formula f => exact h
  | constant v t g => exact h.elim

theorem NameMap.has_insert {α : Type} {m : NameMap α} {x : String} {a : α} :
    (m.insert y a).Has x ↔ y = x ∨ m.Has x := by
  unfold NameMap.Has
  rw [NameMap.get?_insert]
  split_ifs with hxy
  · simp [hxy]
  · simp [hxy]

namespace Watch

open Generation

/-! ### Logs -/

/-- Whether a log tells which constants there are: the inputs and those that have been made. All that were
there when one of them was made are there still. -/
structure Records (f : Function) (es : List Event) (types : NameMap Ty) : Prop where
  constants : ∀ x t, types.get? x = some t ↔
    (inputSymbols f).get? x = some t ∨ ∃ g, .constant (.var x) t g ∈ es
  moments : ∀ v t g, .constant v t g ∈ es → g.symbols.Under types

/-- Whether a name is new to a generator and to what has been seen before. -/
structure Fresh (f : Function) (before : List Event) (g : Generator) (y : String) : Prop where
  inputs : ∀ d ∈ f.inputs, d.name ≠ y
  symbols : g.symbols.get? y = none
  seen : ∀ e ∈ before, e.In (· ≠ y)
  obligations : ∀ o ∈ g.obligations, o.In (· ≠ y)

/-- Whether all constants in a log are new when they are made. The obligations of that moment are about the
constants of that moment, which the log before tells. -/
def AllFresh (f : Function) (es : List Event) : Prop :=
  ∀ before v t g after, es = before ++ .constant v t g :: after →
    (∃ y, v = .var y ∧ Fresh f before g y) ∧ Records f before g.symbols ∧
      ∀ o ∈ g.obligations, o.In g.symbols.Has

/-- What holds between a log and a generator. -/
structure Recalls (f : Function) (es : List Event) (g : Generator) : Prop where
  fresh : AllFresh f es
  records : Records f es g.symbols
  closed : ∀ e ∈ es, e.In g.symbols.Has

variable {f : Function} {es : List Event} {g g' : Generator}

theorem allFresh_nil (f : Function) : AllFresh f [] := by
  intro before v t g after h
  simp at h

theorem AllFresh.append (h : AllFresh f es) {new : List Event}
    (hnew : ∀ before v t g after, new = before ++ .constant v t g :: after →
      (∃ y, v = .var y ∧ Fresh f (es ++ before) g y) ∧ Records f (es ++ before) g.symbols ∧
        ∀ o ∈ g.obligations, o.In g.symbols.Has) :
    AllFresh f (es ++ new) := by
  intro before v t g after heq
  rcases List.append_eq_append_iff.mp heq with ⟨mid, rfl, hmid⟩ | ⟨mid, rfl, hmid⟩
  · exact hnew mid v t g after hmid
  · cases mid with
    | nil =>
      rw [List.append_nil] at hnew
      simpa using hnew [] v t g after hmid.symm
    | cons e mid =>
      obtain ⟨rfl, -⟩ := List.cons.inj hmid
      exact h before v t g mid rfl

theorem has_foldl_insert (ds : List Declaration) {m : NameMap Ty} {x : String} (hx : m.Has x) :
    (ds.foldl (fun m d => m.insert d.name d.type) m).Has x := by
  induction ds generalizing m with
  | nil => exact hx
  | cons d ds ih => exact ih (NameMap.has_insert.mpr (.inr hx))

/-- Inputs are constants from the start. -/
theorem has_inputSymbols {d : Declaration} (hd : d ∈ f.inputs) : (inputSymbols f).Has d.name := by
  obtain ⟨ds, ds', hsplit⟩ := List.append_of_mem hd
  unfold inputSymbols
  rw [hsplit, List.foldl_append, List.foldl_cons]
  exact has_foldl_insert ds' (NameMap.has_insert.mpr (.inl rfl))

/-- Events in which no constant is made are told at any time. -/
theorem Recalls.add (h : Recalls f es g) (hg : g'.symbols = g.symbols) {new : List Event}
    (hplain : ∀ v t k, .constant v t k ∉ new) (hin : ∀ e ∈ new, e.In g'.symbols.Has) :
    Recalls f (es ++ new) g' := by
  have hmem : ∀ v t k, Event.constant v t k ∈ es ++ new ↔ .constant v t k ∈ es := fun v t k => by
    simp [hplain v t k]
  refine ⟨h.fresh.append fun before v t k after heq => ?_, ⟨?_, ?_⟩, fun e he => ?_⟩
  · exact absurd (heq ▸ List.mem_append_right _ List.mem_cons_self) (hplain v t k)
  · simpa only [hmem, hg] using h.records.constants
  · simpa only [hmem, hg] using h.records.moments
  · rcases List.mem_append.mp he with he | he
    · exact hg ▸ h.closed e he
    · exact hin e he

/-- What mentions only constants does not mention a name that is none. -/
theorem ne_of_has {m : NameMap Ty} (hy : m.get? y = none) (x : String) (hx : m.Has x) : x ≠ y := by
  rintro rfl
  obtain ⟨t, ht⟩ := hx
  rw [hy] at ht
  cases ht

/-- A name that is no constant may become one. -/
theorem Recalls.constant (h : Recalls f es g) {t : Ty} (hy : g.symbols.get? y = none)
    (hobligations : ∀ o ∈ g.obligations, o.In g.symbols.Has)
    (hg : g'.symbols = g.symbols.insert y t) : Recalls f (es ++ [.constant (.var y) t g]) g' := by
  have hne := ne_of_has hy
  have hunder : g.symbols.Under g'.symbols := hg ▸ NameMap.under_insert hy t
  have hmem : ∀ v u k, Event.constant v u k ∈ es ++ [.constant (.var y) t g] ↔
      .constant v u k ∈ es ∨ v = .var y ∧ u = t ∧ k = g := fun v u k => by simp
  refine ⟨h.fresh.append fun before v u k after heq => ?_, ⟨fun x u => ?_, fun v u k hk => ?_⟩, ?_⟩
  · obtain ⟨rfl, hevent⟩ : before = [] ∧ [Event.constant v u k] ++ after = [.constant (.var y) t g] := by
      rcases List.append_eq_singleton_iff.mp heq.symm with hnil | ⟨-, hcons⟩
      · exact hnil
      · cases hcons
    cases hevent
    rw [List.append_nil]
    refine ⟨⟨y, rfl, fun d hd => ?_, hy, fun e he => (h.closed e he).mono hne,
      fun o ho => (hobligations o ho).mono hne⟩, h.records, hobligations⟩
    obtain ⟨u, hu⟩ := has_inputSymbols hd
    exact hne d.name ⟨u, (h.records.constants _ u).mpr (.inl hu)⟩
  · rw [hg, NameMap.get?_insert]
    have hold := h.records.constants x u
    have hvar : Value.var x = .var y ↔ x = y := by simp [Value.var]
    simp only [hmem, exists_or, hvar]
    split_ifs with hxy
    · subst hxy
      rw [hy] at hold
      constructor
      · intro hu
        exact .inr (.inr ⟨g, rfl, (Option.some.inj hu).symm, rfl⟩)
      · rintro (hinput | hmade | ⟨_, -, rfl, -⟩)
        · cases hold.mpr (.inl hinput)
        · cases hold.mpr (.inr hmade)
        · rfl
    · rw [hold]
      simp [Ne.symm hxy]
  · rcases (hmem v u k).mp hk with hk | ⟨-, -, rfl⟩
    · exact (h.records.moments v u k hk).trans hunder
    · exact hunder
  · intro e he
    rcases List.mem_append.mp he with he | he
    · exact (h.closed e he).mono hunder.has
    · obtain rfl := List.mem_singleton.mp he
      change (Value.var y).freeVars.In _
      rw [Value.freeVars_var, SortedSet.in_single]
      exact ⟨t, by rw [hg, NameMap.get?_insert, if_pos rfl]⟩

/-- The ledger of the constants. -/
def freshness (functions : List Function) (f : Function) : (closedness functions).Ledger where
  Holds := Recalls f
  Stops := AllFresh f
  stop h := h.fresh
  add {es g g' new} h hg hnew := by
    refine h.add hg (fun v t k hk => hnew _ hk) fun e he => ?_
    rw [hg]
    exact Event.in_of_keeps (hnew e he)
  constant h hkept hy hg := h.constant hy hkept.obligations hg

/-- The log of a function: its constants are new, and it tells the constants at the end. -/
theorem fresh_function (modes : Modes) (hfs : ∀ f ∈ functions, f.Promises (closedness functions))
    (hf : f ∈ functions) (hobeys : f.Obeys (closedness functions))
    {r : Except Stop (Unit × Generator)}
    (h : outcome (Watch.function modes functions f) default [] = (r, es)) :
    AllFresh f es ∧ ∀ u g, r = .ok (u, g) → Records f es g.symbols := by
  have hstart : ∀ g : Generator, g.symbols = inputSymbols f → Recalls f [] g := fun g hg =>
    ⟨allFresh_nil f, ⟨fun x t => by simp [hg], fun v t g hg => (nomatch hg)⟩, fun e he => (nomatch he)⟩
  have hrun := watched_function (L := freshness functions f) modes hfs hf hobeys hstart (allFresh_nil f)
  rw [h] at hrun
  cases r with
  | error err =>
    refine ⟨?_, fun u g hr => (nomatch hr)⟩
    cases err with
    | error err => exact hrun
    | outOfScope err => exact hrun.1
  | ok r =>
    refine ⟨hrun.2.fresh, fun u g hr => ?_⟩
    cases hr
    exact hrun.2.records

end Watch

/-- Let a program be read from a file and obey the scoping rules, before or after the inference of types. The
symbolic constants that are made in a run of generation for one of its functions are new: their names are no
names of inputs or of constants before, and nothing mentions them when they are made. This holds as far as the
run gets. At all times the constants are the inputs and those that have been made, each with its type. So
constants only become more, and none changes its type up to the scope that all obligations share. -/
theorem Program.constants_fresh {file : SourceFile} {p q : Program}
    (hread : (Program.read file).program = some p) (hq : q = p ∨ q = p.infer.1)
    (hvalid : q.validate = []) (modes : Modes) {f : Function} (hf : f ∈ q.functions) :
    ∃ es, Watch.outcome (Watch.function modes q.functions f) default [] =
        ((Generation.function modes q.functions f).run default, es) ∧
      Watch.AllFresh f es ∧
      ∀ os, f.obligations modes q.functions = .ok os → ∀ o ∈ os, Watch.Records f es o.scope.vars := by
  have hclosed := Program.closed_functions hread hq hvalid
  obtain ⟨es, hes⟩ := Watch.shows_function modes q.functions f default []
  rw [List.nil_append] at hes
  obtain ⟨hfresh, hrecords⟩ := Watch.fresh_function modes (fun f hf => (hclosed f hf).1) hf
    (hclosed f hf).2 hes
  refine ⟨es, hes, hfresh, fun os hos o ho => ?_⟩
  unfold Function.obligations at hos
  split at hos
  · next u g hrun =>
    cases hos
    obtain ⟨o', -, rfl⟩ := List.mem_map.mp ho
    exact hrecords u g hrun
  · cases hos

/-- The names of the constants in a log. -/
def Watch.names (es : List Event) : List String :=
  es.filterMap fun e => match e with
    | .constant v _ _ => some v.print
    | _ => none

/-- One variable is declared in both branches and in a loop, which changes the input. -/
def againText : SourceFile := .ofString "again"
  "(defun again ((mut n i32)) unit
    (body (if ((> n 0) (let k i32)) (else (let k i32))) (while (< n 9) (let k i32) (set n (+ n 1)))))"

/-- The constants of `againText`, two of them for variables of one name that are never in scope together. -/
theorem Program.constants_fresh_again : ∃ p f es os, (Program.read againText).program = some p ∧
    p.validate = [] ∧ f ∈ p.functions ∧ f.obligations .standard p.functions = .ok os ∧
    Watch.names es = ["k", "k'1", "n'1", "k'2"] ∧ Watch.AllFresh f es ∧
    ∀ o ∈ os, Watch.Records f es o.scope.vars := by
  obtain ⟨p, f, hp, hvalid, hf, hlog⟩ := Program.exists_of_read againText
    (fun p f => (f.obligations .standard p.functions).toOption.isSome &&
      Watch.names (Watch.outcome (Watch.function .standard p.functions f) default []).2 =
        ["k", "k'1", "n'1", "k'2"]) (by decide +kernel)
  rw [Bool.and_eq_true, decide_eq_true_iff, Option.isSome_iff_exists] at hlog
  obtain ⟨⟨os, hos⟩, hnames⟩ := hlog
  have hok := toOption_eq_some.mp hos
  obtain ⟨es, hes, hfresh, hrecords⟩ := Program.constants_fresh hp (.inl rfl) hvalid .standard hf
  rw [hes] at hnames
  exact ⟨p, f, es, os, hp, hvalid, hf, hok, hnames, hfresh, hrecords os hok⟩

end Verdict
