import Verdict.Proofs.Disciplines
import Verdict.Proofs.Watching

/-! # Runs that keep a discipline

Every run of a function that obeys a discipline keeps it, so that it holds of all obligations
(`Discipline.keeps_obligations`). This is shown for watched runs, whose logs may be under a second
condition: a ledger links the log of a run to the constants of the generator, which are more as the run
goes on. `Discipline.Binds` carries the induction over commands. -/

namespace Verdict

open Scoping (Env)

theorem NameMap.under_insert {α : Type} {m : NameMap α} {y : String} (hy : m.get? y = none) (a : α) :
    m.Under (m.insert y a) := by
  intro x b hx
  rw [NameMap.get?_insert, if_neg, hx]
  rintro rfl
  rw [hy] at hx
  cases hx

namespace Discipline

/-! ### Ledgers -/

section Ledger

variable {functions : List Function} (D : Discipline functions)

/-- Whether what is seen of a run is kept. That a constant is made is not a matter of this. -/
def KeepsEvent (types : NameMap Ty) : Event → Prop
  | .state s => (∀ x v, s.values.get? x = some v → D.keepsEntry types v) ∧
    ∀ f ∈ s.facts, D.keepsFormula types f
  | .value v => D.keepsEntry types v
  | .expr a => D.keepsExpr types a
  | .formula f => D.keepsFormula types f
  | .constant _ _ _ => False

/-- What is to hold between the log of a run and the generator. -/
structure Ledger where
  Holds : List Event → Generator → Prop
  /-- What is left of it where a run stops. -/
  Stops : List Event → Prop
  stop : ∀ {es g}, Holds es g → Stops es
  add : ∀ {es g g' new}, Holds es g → g'.symbols = g.symbols →
    (∀ e ∈ new, D.KeepsEvent g.symbols e) → Holds (es ++ new) g'
  constant : ∀ {es g g' y t}, Holds es g → D.Kept g → g.symbols.get? y = none →
    g'.symbols = g.symbols.insert y t → Holds (es ++ [.constant (.var y) t g]) g'

variable {D}

theorem Binds.seen {e : Env} {types : NameMap Ty} {s : SymState} (h : D.Binds e types s) :
    D.KeepsEvent types (.state s) := ⟨h.entries, h.facts⟩

end Ledger

namespace Ledger

open Watch

variable {functions : List Function} {D : Discipline functions} {α β : Type} {k : α → WatchM β}
  {m : GenM α} {seen : α → List Event}

/-- Whether a watched run keeps a discipline and goes on with its log. If it gives a result, then that has
a property. -/
def Watched (L : D.Ledger) (w : WatchM α) (types : NameMap Ty) (Q : NameMap Ty → α → Prop) : Prop :=
  ∀ g es, D.Kept g → g.symbols = types → L.Holds es g → match outcome w g es with
    | (.ok (a, g'), es') => D.Kept g' ∧ types.Under g'.symbols ∧ L.Holds es' g' ∧ Q g'.symbols a
    | (.error (.error _), es') => L.Stops es'
    | (.error (.outOfScope _), es') => L.Stops es' ∧ ¬ D.written

variable {L : D.Ledger} {w : WatchM α} {types : NameMap Ty} {P Q : NameMap Ty → α → Prop}

theorem watched_pure {a : α} (h : Q types a) : L.Watched (pure a) types Q := by
  rintro g es hg rfl hes
  exact ⟨hg, .refl _, hes, h⟩

theorem Watched.bind {Q : NameMap Ty → β → Prop} (h : L.Watched w types P)
    (hk : ∀ a types', types.Under types' → P types' a → L.Watched (k a) types' Q) :
    L.Watched (w >>= k) types Q := by
  intro g es hg hsymbols hes
  have hw := h g es hg hsymbols hes
  rw [outcome_bind]
  generalize outcome w g es = r at hw ⊢
  obtain ⟨err | ⟨a, g₁⟩, es₁⟩ := r
  · cases err <;> exact hw
  · obtain ⟨hkept, hunder, hholds, hP⟩ := hw
    have hnext := hk a g₁.symbols hunder hP g₁ es₁ hkept rfl hholds
    dsimp only
    generalize outcome (k a) g₁ es₁ = r at hnext ⊢
    obtain ⟨err | ⟨b, g₂⟩, es₂⟩ := r
    · cases err <;> exact hnext
    · exact ⟨hnext.1, hunder.trans hnext.2.1, hnext.2.2⟩

theorem Watched.mono (h : L.Watched w types P) (hPQ : ∀ a types', P types' a → Q types' a) :
    L.Watched w types Q := by
  have hbind := h.bind (k := pure) fun a types' _ ha => watched_pure (hPQ a types' ha)
  rwa [bind_pure] at hbind

/-- A safe step may be watched from outside, if what is seen of it is kept. -/
theorem watched_watch (h : D.Safe m types (Q types))
    (hseen : ∀ a, Q types a → ∀ e ∈ seen a, D.KeepsEvent types e) :
    L.Watched (watch seen m) types Q := by
  rintro g es hg rfl hes
  have hsafe := h g hg rfl
  rw [outcome_watch]
  cases hrun : m.run g with
  | error err =>
    rw [hrun] at hsafe
    cases err with
    | error err => exact L.stop hes
    | outOfScope err => exact ⟨L.stop hes, hsafe⟩
  | ok r =>
    rw [hrun] at hsafe
    obtain ⟨hkept, hsymbols, hQ⟩ := hsafe
    refine ⟨hkept, hsymbols ▸ .refl _, L.add hes hsymbols (hseen r.1 hQ), ?_⟩
    rwa [hsymbols]

/-- After a safe step a run goes on with the same constants. -/
theorem after_watch {P : α → Prop} {Q : NameMap Ty → β → Prop} (h : D.Safe m types P)
    (hseen : ∀ a, P a → ∀ e ∈ seen a, D.KeepsEvent types e)
    (hk : ∀ a, P a → L.Watched (k a) types Q) : L.Watched (watch seen m >>= k) types Q := by
  have hwatch : L.Watched (watch seen m) types fun types' a => types' = types ∧ P a :=
    watched_watch (h.mono fun a ha => ⟨rfl, ha⟩) fun a ha => hseen a ha.2
  refine hwatch.bind fun a types' _ ha => ?_
  obtain ⟨rfl, ha⟩ := ha
  exact hk a ha

theorem after_unseen {P : α → Prop} {Q : NameMap Ty → β → Prop} (h : D.Safe m types P)
    (hk : ∀ a, P a → L.Watched (k a) types Q) : L.Watched (unseen m >>= k) types Q :=
  after_watch h (by simp) hk

variable {e : Env} {s s₀ : SymState}

theorem watched_step {m : GenM SymState} (h : D.Safe m types (D.Continues s e types)) :
    L.Watched (step m) types (D.Continues s e) := by
  refine watched_watch h fun s' hs' event hevent => ?_
  obtain rfl := List.mem_singleton.mp hevent
  exact hs'.binds.seen

theorem watched_reach (h : D.Continues s₀ e types s) : L.Watched (reach s) types (D.Continues s₀ e) :=
  watched_step (safe_pure h)

theorem after_reach {k : SymState → WatchM α} (hs : D.Binds e types s) (hk : L.Watched (k s) types Q) :
    L.Watched (reach s >>= k) types Q := by
  refine after_watch (P := fun s' => s' = s) (safe_pure rfl) ?_ ?_
  · rintro _ rfl event hevent
    obtain rfl := List.mem_singleton.mp hevent
    exact hs.seen
  · rintro _ rfl
    exact hk

end Ledger

end Discipline

namespace Generation

open Scoping Watch
open Discipline (safe_pure safe_inScope)
open Discipline.Ledger (Watched watched_pure watched_step watched_reach after_watch after_unseen after_reach)

variable {ctx : GenContext} {D : Discipline ctx.functions} {L : D.Ledger} {types : NameMap Ty} {e : Env}
  {s : SymState} {subject : Subject}

/-! ### Constants -/

/-- The step that makes constants. It always makes one. -/
theorem watched_constant (t : Ty) {x : String} {isPrimed : Bool}
    (hx : isPrimed = false → '\'' ∉ x.toList) :
    L.Watched (Watch.constant x t isPrimed) types fun types' v => D.keepsValue types' t v := by
  rintro g es hg rfl hes
  obtain ⟨y, g', hrun, hfree, hname, hsymbols, -, hobligations⟩ := run_constant x t isPrimed g
  rw [outcome_constant, outcome_watch, show (constant x t isPrimed).run g = _ from hrun]
  have hnames : ∀ z u, g'.symbols.get? z = some u → '\'' ∉ z.toList ∨ ∃ z' i, z = primed z' i := by
    intro z u hz
    rw [hsymbols, NameMap.get?_insert] at hz
    split_ifs at hz with hyz
    · subst hyz
      rcases hname with ⟨hprimed, rfl⟩ | ⟨i, hi, -⟩
      · exact .inl (hx hprimed)
      · exact .inr ⟨x, i, hi⟩
    · exact hg.names z u hz
  have hunder : g.symbols.Under g'.symbols := hsymbols ▸ NameMap.under_insert hfree t
  refine ⟨hg.grow hunder hnames hobligations, hunder, L.constant hes hg hfree hsymbols, D.var ?_⟩
  rw [hsymbols, NameMap.get?_insert, if_pos rfl]

theorem watched_havoc {xs : List String} (hs : D.Binds e types s)
    (htypes : ∀ x t, e.scope.vars.get? x = some t → s.frame.type? x = some t) :
    L.Watched (Watch.havoc s xs) types (D.Continues s e) := by
  induction xs generalizing s types with
  | nil => exact watched_pure ⟨rfl, hs⟩
  | cons x xs ih =>
    unfold Watch.havoc
    split
    · next t _ htype =>
      refine (watched_constant t (by simp)).bind fun v types₁ hunder hv => ?_
      have hset : D.Binds e types₁ (s.set x v) := by
        refine (hs.grow hunder).set (D.entry hv) fun u hu => ?_
        obtain rfl : t = u := Option.mem_unique htype (htypes x u hu)
        exact hv
      exact after_reach hset ((ih hset htypes).mono fun s₁ _ hs₁ => hs₁.after rfl)
    · exact ih hs htypes

/-! ### Commands -/

/-- What watched runs of branches do with states of an environment. -/
def BranchesWatched (L : D.Ledger) (e : Env) (subject : Subject) (bs : Branches) : Prop :=
  ∀ {types : NameMap Ty} {s : SymState}, D.Binds e types s → s.frame.Serves ctx.functions e →
    L.Watched (Watch.alternative ctx s subject bs) types (D.Binds e)

/-- What watched runs of a block do with states of an environment. -/
def BlockWatched (L : D.Ledger) (e : Env) (cs : List Command) : Prop :=
  ∀ {types : NameMap Ty} {s : SymState}, D.Binds e types s → s.frame.Serves ctx.functions e →
    L.Watched (Watch.block ctx s cs) types fun types' s' =>
      D.Binds (Scoping.block e cs).1 types' s' ∧ s'.frame.Serves ctx.functions (Scoping.block e cs).1

section

variable (hfs : ∀ f ∈ ctx.functions, f.Promises D)
include hfs
variable {α : Type} {inv : Formula} {variant : Option Expr}

section

variable (hs : D.Binds e types s) (he : Faces ctx s.frame e) {Q : NameMap Ty → α → Prop}
include hs he

theorem after_value {k : Value × SymState → WatchM α} {v : Value} {t : Ty} (hv : D.asksValue e t v)
    (hk : ∀ r, D.keepsValue types t r.1 ∧ D.Learns types s r.2 → L.Watched (k r) types Q) :
    L.Watched (Watch.value ctx s subject v >>= k) types Q := by
  refine after_watch (safe_value hfs hs he hv) (fun r hr => ?_) hk
  simp only [List.forall_mem_cons, List.not_mem_nil, false_implies, implies_true, and_true]
  exact ⟨D.entry hr.1, (hr.2.binds hs).seen⟩

theorem after_formula {k : Formula × SymState → WatchM α} {p : Formula} (hp : D.asksFormula e p)
    (hk : ∀ r, D.keepsFormula types r.1 ∧ D.Learns types s r.2 → L.Watched (k r) types Q) :
    L.Watched (Watch.formula ctx s subject p >>= k) types Q := by
  refine after_watch (safe_formula hfs hs he hp) (fun r hr => ?_) hk
  simp only [List.forall_mem_cons, List.not_mem_nil, false_implies, implies_true, and_true]
  exact ⟨hr.1, (hr.2.binds hs).seen⟩

theorem after_check {k : SymState → WatchM α} {kind : ObligationKind} {p : Formula} (hp : D.asksFormula e p)
    (hk : ∀ s', D.Learns types s s' → L.Watched (k s') types Q) :
    L.Watched (step (check ctx s kind subject p) >>= k) types Q := by
  refine after_watch (safe_check hfs hs he hp) (fun s' hs' event hevent => ?_) hk
  obtain rfl := List.mem_singleton.mp hevent
  exact (hs'.binds hs).seen

theorem safe_measureBefore (hvariant : ∀ a ∈ variant, D.asksValue e .i32 a.toValue) :
    D.Safe (measureBefore ctx s subject variant) types fun r =>
      (∀ a ∈ r.1, D.keepsExpr types a) ∧ D.Learns types s r.2 := by
  unfold measureBefore
  split
  · next a _ =>
    refine (safe_expr hfs hs he (hvariant a rfl)).bind fun r hr => ?_
    refine (safe_emit (hr.2.binds hs) (D.compare .ge hr.1 (D.num 0))).bind fun _ _ => ?_
    refine safe_pure ⟨fun b hb => ?_, hr.2⟩
    obtain rfl := Option.some.inj hb
    exact hr.1
  · exact (safe_emit hs (D.lit false)).bind fun _ _ => safe_pure ⟨by simp, hs.learns⟩
  · exact safe_pure ⟨by simp, hs.learns⟩

theorem safe_measureAfter {before : Option Expr} (hvariant : ∀ a ∈ variant, D.asksValue e .i32 a.toValue)
    (hbefore : ∀ a ∈ before, D.keepsExpr types a) :
    D.Safe (measureAfter ctx s subject variant before) types fun _ => True := by
  unfold measureAfter
  split
  · next a b =>
    refine (safe_expr hfs hs he (hvariant a rfl)).bind fun r hr => ?_
    exact safe_emit (hr.2.binds hs) (D.compare .lt hr.1 (hbefore b rfl))
  · exact safe_pure trivial

end

/-- The state at the start of an iteration may have values for more variables than the invariant
knows. -/
theorem watched_iteration {e' : Env} {written : Names} (hs : D.Binds e' types s)
    (htypes : ∀ x t, e'.scope.vars.get? x = some t → s.frame.type? x = some t)
    (hmore : ∀ x t, e.scope.vars.get? x = some t → e'.scope.vars.get? x = some t) (he : Faces ctx s.frame e)
    (hinv : D.asksFormula e inv) :
    L.Watched (Watch.iteration ctx s subject written inv) types (D.Continues s e') := by
  refine (watched_havoc hs htypes).bind fun h types₁ _ hh => ?_
  refine after_formula hfs (hh.binds.before hmore) (hh.frame ▸ he) hinv fun r hr => ?_
  refine watched_reach ⟨?_, (hr.2.binds hh.binds).assume hr.1⟩
  rw [SymState.assume_frame, hr.2.frame, hh.frame]

theorem watched_whileLoop {c : Formula} {body : List Command} {o : Origin} (hs : D.Binds e types s)
    (hframe : s.frame.Serves ctx.functions e) (hc : D.asksFormula e c) (hinv : D.asksFormula e inv)
    (hvariant : ∀ a ∈ variant, D.asksValue e .i32 a.toValue) (hextends : e.Extends (Scoping.block e body).1)
    (hbody : BlockWatched L e body) :
    L.Watched (Watch.run ctx s subject (.whileLoop c inv variant body o)) types (D.Continues s e) := by
  have he := faces_of_serves hframe
  refine after_check hfs hs he hinv fun s₁ hs₁ => ?_
  refine (watched_iteration hfs (hs₁.binds hs) (hs₁.frame ▸ hframe.types) (fun _ _ => id)
    (hs₁.frame ▸ he) hinv).bind fun h types₂ _ hh => ?_
  have hframe₂ : h.frame = s.frame := hh.frame.trans hs₁.frame
  refine after_formula hfs hh.binds (hframe₂ ▸ he) hc fun r hr => ?_
  have hframe₃ : ∀ p, (r.2.assume p).frame = s.frame := fun p => by
    rw [SymState.assume_frame, hr.2.frame, hframe₂]
  have hr₃ := hr.2.binds hh.binds
  have hb := hr₃.assume hr.1
  have hbframe : (r.2.assume r.1).frame.Serves ctx.functions e := (hframe₃ r.1) ▸ hframe
  refine after_reach hb ?_
  refine after_watch (safe_measureBefore hfs hb (faces_of_serves hbframe) hvariant)
    (fun before hbefore event hevent => ?_) fun before hbefore => ?_
  · rcases List.mem_append.mp hevent with hevent | hevent
    · obtain ⟨a, ha, rfl⟩ := List.mem_map.mp hevent
      exact hbefore.1 a (Option.mem_toList.mp ha)
    · obtain rfl := List.mem_singleton.mp hevent
      exact (hbefore.2.binds hb).seen
  refine (hbody (hbefore.2.binds hb) (hbefore.2.frame ▸ hbframe)).bind fun b types₅ hunder hb₅ => ?_
  have hb₅' := hb₅.1.before fun x t => hextends.type?
  have hexit := faces_of_extends hb₅.2 hextends hframe.env
  refine after_check hfs hb₅' hexit hinv fun b₆ hb₆ => ?_
  refine after_unseen (safe_measureAfter hfs (hb₆.binds hb₅') (hb₆.frame ▸ hexit) hvariant
    fun a ha => D.growExpr hunder (hbefore.1 a ha)) fun _ _ => ?_
  exact watched_reach ⟨hframe₃ _, (hr₃.grow hunder).assume (D.growFormula hunder (D.negate hr.1))⟩

/-- The iterator has a value also where it is a wildcard, which the rules do not see. So states are
described with it added to the environment. -/
theorem watched_forRange {i : String} {lo hi : Value} {body : List Command} {o : Origin}
    (hs : D.Binds e types s) (hframe : s.frame.Serves ctx.functions e) (hlo : D.asksValue e .i32 lo)
    (hhi : D.asksValue e .i32 hi) (hdecl : declareFaults e o i .i32 = []) (hwritten : D.written → i ≠ "_")
    (hinv : D.asksFormula (Scoping.declare e i .i32 false) inv)
    (hextends : (Scoping.declare e i .i32 false).Extends
      (Scoping.block (Scoping.declare e i .i32 false) body).1)
    (hbody : BlockWatched L (Scoping.declare e i .i32 false) body) :
    L.Watched (Watch.run ctx s subject (.forRange i lo hi inv body o)) types (D.Continues s e) := by
  have he := faces_of_serves hframe
  have hdecl' : (Scoping.command e (.declare ⟨i, .i32, false, none⟩)).2 = [] :=
    declareFaults_eq_nil hdecl none
  have hmore : ∀ x t, (Scoping.declare e i .i32 false).scope.vars.get? x = some t →
      (e.add i .i32 false).scope.vars.get? x = some t := by
    intro x t hx
    rw [Env.type?_add]
    exact vars_declare_sub hframe.wildcard i x t hx
  refine after_value hfs hs he hlo fun r₁ hr₁ => ?_
  have hs₁ := hr₁.2.binds hs
  refine after_value hfs hs₁ (hr₁.2.frame ▸ he) hhi fun r₂ hr₂ => ?_
  have hs₂ := hr₂.2.binds hs₁
  have hframe₂ : r₂.2.frame = s.frame := hr₂.2.frame.trans hr₁.2.frame
  have hserves : r₂.2.frame.Serves ctx.functions e := hframe₂ ▸ hframe
  -- The frame of the body knows the iterator.
  refine after_unseen (safe_inScope (fun hw => hserves.exists_step (hwritten hw) hdecl')
    fun frame hstep => hstep) fun frame hstep => ?_
  have hinner := hserves.step hdecl' hstep
  have htypes : ∀ x t, (e.add i .i32 false).scope.vars.get? x = some t → frame.type? x = some t := by
    intro x t hx
    rw [Env.type?_add] at hx
    exact Frame.types_of_declare hstep hserves.types x t hx
  have hfaces := faces_of_serves hinner
  have hset : D.Binds (e.add i .i32 false) types { r₂.2.set i r₁.1 with frame } :=
    (hs₂.add i hr₁.1 false).withFrame frame
  refine after_reach hset ?_
  refine after_check hfs (hset.before hmore) hfaces hinv fun s₄ hs₄ => ?_
  refine (watched_iteration hfs (hs₄.binds hset) (hs₄.frame ▸ htypes) hmore (hs₄.frame ▸ hfaces)
    hinv).bind fun h types₅ hunder₅ hh => ?_
  have hiterator : (e.add i .i32 false).scope.vars.get? i = some .i32 := by
    rw [Env.type?_add, NameMap.get?_insert, if_pos rfl]
  have hguard : D.keepsFormula types₅ (rangeGuard i h r₂.1) :=
    D.compare .lt (D.toExpr (hh.binds.valueOf hiterator)) (D.toExpr (D.growValue hunder₅ hr₂.1))
  have hb := (hh.binds.before hmore).assume hguard
  have hframe₅ : (h.assume (rangeGuard i h r₂.1)).frame = frame := by
    rw [SymState.assume_frame, hh.frame, hs₄.frame]
  refine after_reach hb ((hbody hb (hframe₅ ▸ hinner)).bind fun b types₆ hunder₆ hb₆ => ?_)
  have hb₆' := hb₆.1.before fun x t => hextends.type?
  refine after_unseen safe_noteLoss fun _ _ => ?_
  refine after_watch (safe_keep _) (fun next hnext event hevent => ?_) fun next hnext => ?_
  · obtain rfl := List.mem_singleton.mp hevent
    exact hnext.2 (D.nextEntry (hb₆'.entryOf i))
  have hlast : D.Binds (Scoping.declare e i .i32 false) types₆ (b.set i next) := by
    refine hb₆'.set (hnext.2 (D.nextEntry (hb₆'.entryOf i))) fun t ht => ?_
    obtain rfl : .i32 = t := Option.mem_unique hiterator (hmore i t ht)
    exact hnext.1 .i32 (D.next (D.toExpr (hb₆'.valueOf ht)))
  refine after_check hfs hlast (faces_of_extends hb₆.2 hextends hinner.env) hinv fun _ _ => ?_
  have hdone := ((hh.binds.before fun x t hx =>
    hmore x t ((declare_extends false hdecl).type? hx)).grow hunder₆).assume
      (D.growFormula hunder₆ (D.negate hguard))
  exact watched_reach ⟨hframe₂, (hdone.forget (get?_iterator hframe.wildcard hdecl)).withFrame _⟩

/-- A condition with a branch and what is run otherwise. -/
theorem watched_branch {c : Formula} {b : List Command} {rest : Branches} (hs : D.Binds e types s)
    (hframe : s.frame.Serves ctx.functions e) (hc : D.asksFormula e c)
    (hextends : e.Extends (Scoping.block e b).1) (hb : BlockWatched L e b)
    (hrest : BranchesWatched L e subject rest) :
    L.Watched (Watch.alternative ctx s subject (.branch c b rest)) types (D.Continues s e) := by
  refine after_formula hfs hs (faces_of_serves hframe) hc fun r hr => ?_
  have hframe₁ : ∀ p, (r.2.assume p).frame.Serves ctx.functions e := fun p => by
    rw [SymState.assume_frame, hr.2.frame]
    exact hframe
  have hs₁ := hr.2.binds hs
  have hthen := hs₁.assume hr.1
  refine after_reach hthen ((hb hthen (hframe₁ _)).bind fun t types₂ hunder₂ ht => ?_)
  have helse := (hs₁.assume (D.negate hr.1)).grow hunder₂
  refine after_reach helse ((hrest helse (hframe₁ _)).bind fun t' types₃ hunder₃ ht' => ?_)
  have hunder := hunder₂.trans hunder₃
  have ht₃ := (ht.1.before fun x t => hextends.type?).grow hunder₃
  exact (watched_step (safe_merge (hs₁.grow hunder) (D.growFormula hunder hr.1) ht₃ ht')).mono
    fun s' _ hs' => hs'.after hr.2.frame

end

mutual

/-- A command that obeys the rules and the discipline, in a frame that serves its environment, leads to
a state for the environment after it. -/
theorem watched_run (hfs : ∀ f ∈ ctx.functions, f.Promises D) (c : Command) {types e s subject}
    (hs : D.Binds e types s) (hframe : s.frame.Serves ctx.functions e) (ho : c.Obeys D e)
    (hw : D.written → c.Written) (hc : (Scoping.command e c).2 = []) :
    L.Watched (Watch.run ctx s subject c) types (D.Continues s (Scoping.command e c).1) :=
  match c, ho, hw, hc with
  | .declare d, ho, hw, hc => by
    have hname : '\'' ∉ d.name.toList := by
      by_cases hd : d.name = "_"
      · rw [hd]
        decide
      · exact not_quote_mem_of_isReserved (of_declareFaults hc hd).1
    refine (watched_constant d.type fun _ => hname).bind fun v types₁ hunder hv => ?_
    exact watched_reach ⟨rfl, (hs.grow hunder).declare hframe.wildcard d.name hv d.mutable⟩
  | .bind d v, ho, hw, hc => by
    refine watched_step ((safe_value hfs hs (faces_of_serves hframe) ho).bind fun r hr => ?_)
    exact safe_pure ⟨hr.2.frame, (hr.2.binds hs).declare hframe.wildcard d.name hr.1 d.mutable⟩
  | .bindTuple ds v o, ho, hw, hc => by
    obtain ⟨t, hv, hds⟩ := ho
    exact watched_step (safe_destructure hfs hs (faces_of_serves hframe) o hframe.wildcard hv hds)
  | .assign a, ho, hw, hc =>
    watched_step
      (safe_assign hfs hs (faces_of_serves hframe) (List.forall_mem_singleton.mpr ho))
  | .assignAll as o, ho, hw, hc => watched_step (safe_assign hfs hs (faces_of_serves hframe) ho)
  | .assert f o, ho, hw, hc | .invariant f o, ho, hw, hc =>
    watched_step ((safe_check hfs hs (faces_of_serves hframe) ho).mono fun s₁ hs₁ =>
      ⟨hs₁.frame, hs₁.binds hs⟩)
  | .assume f o, ho, hw, hc => by
    refine watched_step ((safe_formula hfs hs (faces_of_serves hframe) ho).bind fun r hr => ?_)
    exact safe_pure ⟨(SymState.assume_frame _ _).trans hr.2.frame, (hr.2.binds hs).assume hr.1⟩
  | .noop o, ho, hw, hc => watched_step (safe_pure ⟨rfl, hs⟩)
  | .cond bs o, ho, hw, hc => watched_conditional hfs bs hs hframe ho hw hc
  | .whileLoop c inv variant body o, ho, hw, hc => by
    obtain ⟨hcond, hinv, hvariant, hbody⟩ := ho
    simp only [Scoping.command, List.append_eq_nil_iff] at hc
    exact watched_whileLoop hfs hs hframe hcond hinv hvariant (block_extends hc.2)
      (watched_block hfs body hbody (fun h => (hw h).2.2.2) hc.2)
  | .forRange i lo hi inv body o, ho, hw, hc => by
    obtain ⟨hlo, hhi, hinv, hbody⟩ := ho
    simp only [Scoping.command, List.append_eq_nil_iff] at hc
    exact watched_forRange hfs hs hframe hlo hhi hc.1.1.2 (fun h => (hw h).1) hinv
      (block_extends hc.2) (watched_block hfs body hbody (fun h => (hw h).2.2.2.2) hc.2)

theorem watched_conditional (hfs : ∀ f ∈ ctx.functions, f.Promises D) (bs : Branches) {types e s subject}
    (hs : D.Binds e types s) (hframe : s.frame.Serves ctx.functions e) (ho : bs.Obeys D e)
    (hw : D.written → bs.Written) (hc : Scoping.branches e bs = []) :
    L.Watched (Watch.conditional ctx s subject bs) types (D.Continues s e) :=
  match bs, ho, hw, hc with
  | .otherwise b, ho, hw, hc => by
    refine (watched_block hfs b ho hw hc hs hframe).bind fun t types₁ hunder ht => ?_
    exact watched_step (safe_copyValues (hs.grow hunder)
      (ht.1.before fun x t => (block_extends hc).type?))
  | .branch c b rest, ho, hw, hc => by
    have heq : Watch.conditional ctx s subject (.branch c b rest) =
        Watch.alternative ctx s subject (.branch c b rest) := by
      simp only [Watch.conditional, Watch.alternative]
    rw [heq]
    simp only [Scoping.branches, List.append_eq_nil_iff] at hc
    exact watched_branch hfs hs hframe ho.1 (block_extends hc.1.2)
      (watched_block hfs b ho.2.1 (fun h => (hw h).2.1) hc.1.2)
      (watched_alternative hfs rest ho.2.2 (fun h => (hw h).2.2) hc.2)

theorem watched_alternative (hfs : ∀ f ∈ ctx.functions, f.Promises D) (bs : Branches) {e subject}
    (ho : bs.Obeys D e) (hw : D.written → bs.Written) (hc : Scoping.branches e bs = []) :
    BranchesWatched L e subject bs :=
  match bs, ho, hw, hc with
  | .otherwise b, ho, hw, hc => fun hs hframe =>
    (watched_block hfs b ho hw hc hs hframe).mono fun t _ ht =>
      ht.1.before fun x t => (block_extends hc).type?
  | .branch c b rest, ho, hw, hc => by
    intro hs hframe
    simp only [Scoping.branches, List.append_eq_nil_iff] at hc
    exact (watched_branch hfs hs hframe ho.1 (block_extends hc.1.2)
      (watched_block hfs b ho.2.1 (fun h => (hw h).2.1) hc.1.2)
      (watched_alternative hfs rest ho.2.2 (fun h => (hw h).2.2) hc.2)).mono fun s' _ hs' => hs'.binds

theorem watched_block (hfs : ∀ f ∈ ctx.functions, f.Promises D) (cs : List Command) {e}
    (ho : Command.AllObey D e cs) (hw : D.written → Command.AllWritten cs) (hc : (Scoping.block e cs).2 = []) :
    BlockWatched L e cs :=
  match cs, ho, hw, hc with
  | [], ho, hw, hc => fun hs hframe => watched_pure ⟨hs, hframe⟩
  | c :: cs, ho, hw, hc => by
    intro hs hframe
    obtain ⟨hfirst, hrest⟩ := block_cons hc
    refine after_unseen (safe_inScope (fun h => hframe.exists_step (hw h).1 hfirst)
      fun frame hstep => hframe.step hfirst hstep) fun frame hserves => ?_
    refine (watched_run hfs c hs hframe ho.1 (fun h => (hw h).1) hfirst).bind fun s₁ _ _ hs₁ => ?_
    exact watched_block hfs cs ho.2 (fun h => (hw h).2) hrest (hs₁.binds.withFrame frame) hserves

end

/-! ### Functions -/

section

variable {functions : List Function} {D : Discipline functions} {f : Function} {frame : Frame}

theorem exists_enters (hd : Declares ⟨.empty, functions⟩ f.inputs)
    (hframe : Frame.entry functions f = .ok frame) :
    ∃ σ, Enters f.entryVars (initial frame f).values (inputSymbols f) σ :=
  ⟨_, enters_initial frame hd.not_quote_mem
    (Ty.hasAll_blankAll _ (anyUnknown_map (known_inputs hframe)))⟩

/-- All values on entry are constants. -/
theorem exists_var_of_foldl (ds : List Declaration) {m : NameMap Ty}
    (h : ∀ x v, s.values.get? x = some v → ∃ y t, v = .var y ∧ m.get? y = some t) (x : String)
    (v : Value) :
    (ds.foldl (fun s d => (s.set d.name (.var d.name)).set (oldName d.name) (.var d.name)) s).values.get? x =
        some v →
      ∃ y t, v = .var y ∧ (ds.foldl (fun m d => m.insert d.name d.type) m).get? y = some t := by
  induction ds generalizing s m with
  | nil => exact h x v
  | cons d ds ih =>
    refine ih fun z w hw => ?_
    simp only [SymState.set, NameMap.get?_insert] at hw ⊢
    split_ifs at hw
    · exact ⟨d.name, d.type, (Option.some.inj hw).symm, if_pos rfl⟩
    · exact ⟨d.name, d.type, (Option.some.inj hw).symm, if_pos rfl⟩
    · obtain ⟨y, t, rfl, hy⟩ := h z w hw
      by_cases hd : d.name = y
      · exact ⟨y, d.type, rfl, if_pos hd⟩
      · exact ⟨y, t, rfl, (if_neg hd).trans hy⟩

/-- On entry all inputs and their values on entry are constants of their types. -/
theorem binds_initial (hd : Declares ⟨.empty, functions⟩ f.inputs)
    (hframe : Frame.entry functions f = .ok frame) :
    D.Binds (f.entryEnv functions) (inputSymbols f) (initial frame f) := by
  obtain ⟨σ, henters⟩ := exists_enters hd hframe
  refine ⟨fun x _ t ht => ?_, fun x v hv => ?_, fun f' hf' => ?_⟩
  · obtain ⟨y, hy, hsymbol, -⟩ := henters.values x t (entryVars_of_entryEnv hd ht)
    exact ⟨.var y, hy, D.var hsymbol⟩
  · have hvar := exists_var_of_foldl f.inputs (s := ⟨frame, .empty, []⟩) (m := .empty)
      (fun _ _ h => (nomatch h)) x v hv
    obtain ⟨y, t, rfl, ht⟩ := hvar
    exact D.entry (D.var ht)
  · rw [facts_initial] at hf'
    cases hf'

theorem faces_postEnv (modes : Modes) (h : frame.Serves functions (f.exitEnv functions)) :
    Faces (contextOf modes functions f) frame (f.postEnv functions) :=
  ⟨⟨fun _ _ => type?_postEnv h.toCovers, h.functions.trans h.env.symm⟩, h.env⟩

section

variable {L : D.Ledger} (modes : Modes) (hfs : ∀ f ∈ functions, f.Promises D) (hf : f ∈ functions)
  (hobeys : f.Obeys D)
include hfs hf hobeys

theorem watched_entered (hframe : Frame.entry functions f = .ok frame) :
    L.Watched (entered (contextOf modes functions f) frame f) (inputSymbols f) fun _ _ => True := by
  obtain ⟨hwritten, hpre, hbody, hresult, hpost⟩ := hobeys
  obtain ⟨hd, -, hblock⟩ := of_function (hfs f hf).rules
  have hctx : ∀ f ∈ (contextOf modes functions f).functions, f.Promises D := hfs
  have hs : D.Binds (f.entryEnv functions) (inputSymbols f) (initial frame f) :=
    binds_initial hd hframe
  have hserves : (initial frame f).frame.Serves (contextOf modes functions f).functions
      (f.entryEnv functions) := by
    rw [frame_initial]
    exact Frame.serves_entry hd hframe
  have hfaces : Faces (contextOf modes functions f) (initial frame f).frame (f.inputEnv functions) := by
    have henv := functions_foldl_declare f.inputs ⟨.empty, functions⟩
    refine ⟨⟨fun x t hx => ?_, hserves.functions.trans henv.symm⟩, henv⟩
    exact (faces_of_serves hserves).within.types x t (Function.get?_entryEnv_of_inputEnv hd hx)
  refine after_reach hs (after_formula hctx (hs.before fun x t => Function.get?_entryEnv_of_inputEnv hd)
    hfaces hpre fun r hr => ?_)
  have hs₁ := (hr.2.binds hs).assume hr.1
  have hframe₁ : (r.2.assume r.1).frame = (initial frame f).frame := by
    rw [SymState.assume_frame, hr.2.frame]
  refine after_reach hs₁ ((watched_block hctx f.body hbody (fun h => (hwritten h).body) hblock hs₁
    (hframe₁ ▸ hserves)).bind fun stop types₂ _ hstop => ?_)
  refine after_value hctx hstop.1 (faces_of_serves hstop.2) hresult fun r₂ hr₂ => ?_
  have hlast : D.Binds (f.postEnv functions) types₂ (r₂.2.set resultName r₂.1) :=
    (hr₂.2.binds hstop.1).add resultName hr₂.1 false
  have hfaces₂ : Faces (contextOf modes functions f) (r₂.2.set resultName r₂.1).frame
      (f.postEnv functions) := faces_postEnv modes (hr₂.2.frame ▸ hstop.2)
  exact after_reach hlast (after_check hctx hlast hfaces₂ hpost fun _ _ => watched_pure trivial)

/-- A run of a function that obeys a discipline keeps it and goes on with its log. -/
theorem watched_function (hstart : ∀ g, g.symbols = inputSymbols f → L.Holds [] g) (hstop : L.Stops []) :
    match outcome (Watch.function modes functions f) default [] with
    | (.ok (_, g), es) => D.Kept g ∧ L.Holds es g
    | (.error (.error _), es) => L.Stops es
    | (.error (.outOfScope _), es) => L.Stops es ∧ ¬ D.written := by
  have hrules := (hfs f hf).rules
  obtain ⟨hd, -, -⟩ := of_function hrules
  unfold Watch.function
  cases hframe : Frame.entry functions f with
  | error err =>
    refine ⟨hstop, fun hw => ?_⟩
    obtain ⟨frame, hok⟩ := Frame.exists_entry hd (hobeys.written hw) (reads_of_function hrules).1
    rw [hframe] at hok
    cases hok
  | ok frame =>
    let g₀ : Generator := { (default : Generator) with symbols := inputSymbols f }
    obtain ⟨σ, henters⟩ := exists_enters hd hframe
    have hkept : D.Kept g₀ := ⟨fun x t ht => .inl (henters.names x t ht), fun o ho => (nomatch ho)⟩
    have hrun := watched_entered (L := L) modes hfs hf hobeys hframe g₀ [] hkept rfl (hstart g₀ rfl)
    change match outcome (entered (contextOf modes functions f) frame f) g₀ [] with
      | (.ok (_, g), es) => D.Kept g ∧ L.Holds es g
      | (.error (.error _), es) => L.Stops es
      | (.error (.outOfScope _), es) => L.Stops es ∧ ¬ D.written
    generalize outcome (entered (contextOf modes functions f) frame f) g₀ [] = r at hrun ⊢
    obtain ⟨err | ⟨a, g⟩, es⟩ := r
    · cases err <;> exact hrun
    · exact ⟨hrun.1, hrun.2.2.1⟩

/-- A run of a function that obeys a discipline is safe. -/
theorem safe_function : match (function modes functions f).run default with
    | .ok (_, g) => D.Kept g
    | .error (.error _) => True
    | .error (.outOfScope _) => ¬ D.written := by
  let L : D.Ledger := ⟨fun _ _ => True, fun _ => True, id, fun _ _ _ => trivial, fun _ _ _ _ => trivial⟩
  have hrun := watched_function (L := L) modes hfs hf hobeys (fun _ _ => trivial) trivial
  obtain ⟨es, hes⟩ := shows_function modes functions f default []
  rw [hes] at hrun
  cases hfun : (function modes functions f).run default with
  | error err =>
    rw [hfun] at hrun
    cases err with
    | error err => trivial
    | outOfScope err => exact hrun.2
  | ok r =>
    rw [hfun] at hrun
    exact hrun.1

end

end

end Generation

/-- What a discipline promises of obligations. -/
theorem Discipline.keeps_obligations {functions : List Function} (D : Discipline functions)
    (modes : Modes) (hfs : ∀ f ∈ functions, f.Promises D) {f : Function} (hf : f ∈ functions)
    (hobeys : f.Obeys D) {os : List Obligation} (hos : f.obligations modes functions = .ok os) :
    ∀ o ∈ os, ∃ m : NameMap Ty, o.scope = ⟨m, functions⟩ ∧
      (∀ x t, m.get? x = some t → '\'' ∉ x.toList ∨ ∃ y i, x = primed y i) ∧
      D.keepsFormula m o.goal ∧ ∀ f ∈ o.assumptions, D.keepsFormula m f := by
  have hsafe := Generation.safe_function modes hfs hf hobeys
  intro o ho
  unfold Function.obligations at hos
  split at hos
  · next u g hg =>
    rw [hg] at hsafe
    cases hos
    obtain ⟨o', ho', rfl⟩ := List.mem_map.mp ho
    exact ⟨g.symbols, rfl, hsafe.names, hsafe.obligations o' ho'⟩
  · cases hos

end Verdict
