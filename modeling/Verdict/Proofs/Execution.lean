import Verdict.Proofs.Meaning

/-! # Execution

A function runs on arguments. A variable that is declared without a value starts with the next value of
a given sequence, a false assumption stops the run, and all targets and values of a simultaneous
assignment are evaluated before anything is written. A `for` loop fixes its upper bound on entry.

Every loop takes a bounded number of iterations, the fuel, so that running is a function. A run that
needs more iterations is unfinished. So is a run that comes to a call that is not answered: all calls
outside quantifiers are made first, also those in operands that are skipped then, and those in the
variant of a loop at the start of each iteration. A run goes wrong where something undefined is
evaluated, and where an assertion, an invariant or the postcondition is false.

* `Ending.Ensures`: partial correctness, with the rule `ensures_iterate` for loops.
* `Halts`: total correctness for all sufficiently large fuel, with the rule `Halts.iterate`.
* `Command.exec_frame`: a command changes only the variables that it affects. -/

namespace Verdict

/-! ### Endings -/

/-- What goes wrong in a run. -/
inductive Violation where
  /-- A division by zero or a position outside an array is evaluated. -/
  | undefined
  | assertion
  | invariant
  | loopInvariant
  | postcondition

/-- How a run ends. -/
inductive Ending (α : Type) where
  | done (a : α)
  /-- An assumption is false. -/
  | blocked
  | wrong (v : Violation)
  /-- The fuel is used up, or a call is not answered. -/
  | unfinished

variable {safe : Prop}

namespace Ending

variable {α β : Type} {m : Ending α} {f : α → Ending β} {P : α → Prop}

/-- Goes on after a run that is done. -/
def bind : Ending α → (α → Ending β) → Ending β
  | done a, f => f a
  | blocked, _ => blocked
  | wrong v, _ => wrong v
  | unfinished, _ => unfinished

instance : Monad Ending where
  pure := done
  bind := bind

@[simp] theorem pure_eq (a : α) : (pure a : Ending α) = done a := rfl

@[simp] theorem done_bind (a : α) (f : α → Ending β) : (done a >>= f) = f a := rfl

@[simp] theorem blocked_bind (f : α → Ending β) : (blocked >>= f) = blocked := rfl

@[simp] theorem wrong_bind (v : Violation) (f : α → Ending β) : (wrong v >>= f) = wrong v := rfl

@[simp] theorem unfinished_bind (f : α → Ending β) : (unfinished >>= f) = unfinished := rfl

theorem bind_eq_done {b : β} : (m >>= f) = done b ↔ ∃ a, m = done a ∧ f a = done b := by
  cases m <;> simp

/-- Whether a run satisfies a property if it is done, and goes wrong only if it need not be safe. -/
def Ensures (safe : Prop) (P : α → Prop) : Ending α → Prop
  | done a => P a
  | wrong _ => ¬ safe
  | blocked | unfinished => True

theorem Ensures.mono {Q : α → Prop} (h : m.Ensures safe P) (hPQ : ∀ a, P a → Q a) :
    m.Ensures safe Q := by
  cases m with
  | done a => exact hPQ a h
  | _ => exact h

theorem ensures_bind {P : β → Prop} :
    (m >>= f).Ensures safe P ↔ m.Ensures safe fun a => (f a).Ensures safe P := by
  cases m <;> rfl

/-- Every run satisfies what follows from its being done, if it is safe. -/
theorem ensures_of_done (hwrong : safe → ∀ v, m ≠ wrong v) (hdone : ∀ a, m = done a → P a) :
    m.Ensures safe P := by
  cases m with
  | done a => exact hdone a rfl
  | wrong v => exact fun hs => hwrong hs v rfl
  | _ => trivial

theorem Ensures.and {Q : α → Prop} (h : m.Ensures safe P) (h' : m.Ensures False Q) :
    m.Ensures safe fun a => P a ∧ Q a := by
  cases m with
  | done a => exact ⟨h, h'⟩
  | _ => exact h

theorem ensures_forall {ι : Sort*} {P : ι → α → Prop} (h : ∀ i, m.Ensures False (P i)) :
    m.Ensures False fun a => ∀ i, P i a := by
  cases m with
  | done a => exact h
  | wrong v => exact not_false
  | _ => trivial

theorem ensures_false (h : ∀ a, P a) : m.Ensures False P :=
  ensures_of_done (fun hs => hs.elim) fun a _ => h a

/-- Whether a run does not go wrong. -/
def Safe (m : Ending α) : Prop := m.Ensures True fun _ => True

theorem safe_iff : m.Safe ↔ ∀ v, m ≠ wrong v := by
  cases m <;> simp [Safe, Ensures]

theorem Ensures.ne_wrong (h : m.Ensures True P) (v : Violation) : m ≠ wrong v := by
  rintro rfl
  exact h trivial

end Ending

/-- Repeats a step until it gives a result, at most a number of times. -/
def iterate {α β : Type} (step : α → Ending (α ⊕ β)) : ℕ → α → Ending β
  | 0, _ => .unfinished
  | n + 1, a => step a >>= fun
    | .inl a' => iterate step n a'
    | .inr b => .done b

theorem iterate_of_unfinished {α β : Type} {step : α → Ending (α ⊕ β)} {a : α}
    (h : step a = .unfinished) (n : ℕ) : iterate step n a = .unfinished := by
  cases n with
  | zero => rfl
  | succ n =>
    unfold iterate
    rw [h]
    rfl

/-- A loop keeps what every step keeps. -/
theorem ensures_iterate {α β : Type} {step : α → Ending (α ⊕ β)} {J : α → Prop} {P : β → Prop}
    (hstep : ∀ a, J a → (step a).Ensures safe (Sum.elim J P)) (n : ℕ) (a : α) (ha : J a) :
    (iterate step n a).Ensures safe P := by
  induction n generalizing a with
  | zero => trivial
  | succ n ih =>
    unfold iterate
    rw [Ending.ensures_bind]
    refine (hstep a ha).mono ?_
    rintro (a' | b) h
    · exact ih a' h
    · exact h

/-! ### Halting -/

/-- Whether runs with enough fuel all end in the same way, by being done with a property or by a false
assumption. -/
def Halts {α : Type} (run : ℕ → Ending α) (P : α → Prop) : Prop :=
  ∃ n₀ out, (∀ n, n₀ ≤ n → run n = out) ∧ ((∃ a, out = .done a ∧ P a) ∨ out = .blocked)

namespace Halts

variable {α β : Type} {run : ℕ → Ending α} {P Q : α → Prop}

theorem done {a : α} (h : P a) : Halts (fun _ => .done a) P :=
  ⟨0, .done a, fun _ _ => rfl, .inl ⟨a, rfl, h⟩⟩

theorem blocked : Halts (fun _ => .blocked) P :=
  ⟨0, .blocked, fun _ _ => rfl, .inr rfl⟩

/-- What partial correctness says of all runs holds when they halt. -/
theorem and_ensures (h : Halts run P) (hQ : ∀ n, (run n).Ensures True Q) :
    Halts run fun a => P a ∧ Q a := by
  obtain ⟨n₀, out, hrun, hout⟩ := h
  refine ⟨n₀, out, hrun, hout.imp_left ?_⟩
  rintro ⟨a, rfl, ha⟩
  have hq := hQ n₀
  rw [hrun n₀ le_rfl] at hq
  exact ⟨a, rfl, ha, hq⟩

theorem mono (h : Halts run P) (hPQ : ∀ a, P a → Q a) : Halts run Q := by
  obtain ⟨n₀, out, hrun, hout⟩ := h
  refine ⟨n₀, out, hrun, hout.imp_left ?_⟩
  rintro ⟨a, rfl, ha⟩
  exact ⟨a, rfl, hPQ a ha⟩

theorem bind {f : ℕ → α → Ending β} {R : β → Prop} (h : Halts run P)
    (hf : ∀ a, P a → Halts (fun n => f n a) R) : Halts (fun n => run n >>= f n) R := by
  obtain ⟨n₀, out, hrun, ⟨a, rfl, ha⟩ | rfl⟩ := h
  · obtain ⟨n₁, out, hf', hout⟩ := hf a ha
    refine ⟨max n₀ n₁, out, fun n hn => ?_, hout⟩
    dsimp only
    rw [hrun n (by omega)]
    exact hf' n (by omega)
  · refine ⟨n₀, .blocked, fun n hn => ?_, .inr rfl⟩
    dsimp only
    rw [hrun n hn]
    rfl

/-- A loop halts if every step does and a measure decreases. -/
theorem iterate {step : ℕ → α → Ending (α ⊕ β)} {J : α → Prop} {R : β → Prop} (μ : α → ℕ)
    (hstep : ∀ a, J a → Halts (fun n => step n a) (Sum.elim (fun a' => J a' ∧ μ a' < μ a) R))
    (a : α) (ha : J a) : Halts (fun n => Verdict.iterate (step n) n a) R := by
  -- The fuel for nested loops and the number of iterations that are left vary on their own.
  have key : ∀ m a, μ a = m → J a → ∃ n₀ out, (∀ n k, n₀ ≤ n → n₀ ≤ k →
      Verdict.iterate (step n) k a = out) ∧ ((∃ b, out = .done b ∧ R b) ∨ out = .blocked) := by
    intro m
    induction m using Nat.strong_induction_on with
    | _ m ih =>
      intro a hm ha
      obtain ⟨n₀, out, hrun, hout⟩ := hstep a ha
      have hunfold : ∀ n k, n₀ + 1 ≤ n → n₀ + 1 ≤ k → Verdict.iterate (step n) k a = out >>= fun
          | .inl a' => Verdict.iterate (step n) (k - 1) a'
          | .inr b => .done b := by
        intro n k hn hk
        obtain ⟨k, rfl⟩ : ∃ j, k = j + 1 := ⟨k - 1, by omega⟩
        rw [← hrun n (by omega)]
        rfl
      obtain ⟨a' | b, rfl, h⟩ | rfl := hout
      · obtain ⟨n₁, out, hrest, hout⟩ := ih (μ a') (hm ▸ h.2) a' rfl h.1
        refine ⟨max n₀ n₁ + 1, out, fun n k hn hk => ?_, hout⟩
        rw [hunfold n k (by omega) (by omega)]
        exact hrest n (k - 1) (by omega) (by omega)
      · exact ⟨n₀ + 1, .done b, hunfold, .inl ⟨b, rfl, h⟩⟩
      · exact ⟨n₀ + 1, .blocked, hunfold, .inr rfl⟩
  obtain ⟨n₀, out, hrun, hout⟩ := key (μ a) a rfl ha
  exact ⟨n₀, out, fun n hn => hrun n n hn hn, hout⟩

end Halts

/-! ### Evaluation -/

/-- What a run does not determine itself. -/
structure Machine where
  interp : Interp
  /-- The calls that are answered. A run that comes to another one does not get past it. -/
  answers : String → List Val → Prop

/-- The machine that answers all calls. -/
def Machine.ofInterp (I : Interp) : Machine := ⟨I, fun _ _ => True⟩

/-- What the variables denote at a point of a run, and the values that uninitialised variables get
from there on. -/
structure Config where
  store : Valuation
  choices : ℕ → Val

namespace Machine

variable (M : Machine)

/-- Whether the calls among some nodes are answered. -/
def Answers (σ : Valuation) (nodes : List Node) : Prop :=
  ∀ c ∈ nodes.filterMap Generation.call?, M.answers c.function (Value.evalAll M.interp σ c.args)

open Classical in
/-- Evaluates something that is well-defined or not, after the calls outside its quantifiers. -/
noncomputable def evaluate {α : Type} (σ : Valuation) (nodes : List Node) (defined : Prop) (a : α) :
    Ending α :=
  if M.Answers σ nodes then
    if defined then .done a else .wrong .undefined
  else .unfinished

open Classical in
/-- Makes the calls among some nodes. -/
noncomputable def await (σ : Valuation) (nodes : List Node) : Ending Unit :=
  if M.Answers σ nodes then .done () else .unfinished

/-- Evaluates a value. -/
noncomputable def value (σ : Valuation) (v : Value) : Ending Val :=
  M.evaluate σ (v.visit Frame.outsideQuantifiers) (v.Defined M.interp σ) (v.eval M.interp σ)

open Classical in
noncomputable def truth (σ : Valuation) (f : Formula) : Ending Bool :=
  M.evaluate σ (f.visit Frame.outsideQuantifiers) (f.Defined M.interp σ)
    (decide (f.Holds M.interp σ))

/-- Stops unless a formula is true. -/
noncomputable def assume (σ : Valuation) (f : Formula) : Ending Unit := do
  if ← M.truth σ f then return () else .blocked

/-- Goes wrong unless a formula is true. -/
noncomputable def check (σ : Valuation) (violation : Violation) (f : Formula) : Ending Unit := do
  if ← M.truth σ f then return () else .wrong violation

end Machine

/-! ### Assignments -/

/-- A value for a variable, or for an element of it. -/
structure Write where
  base : String
  index : Option ℤ
  value : Val

/-- Carries out a write. A variable with the empty name cannot be written to. -/
def Write.apply (σ : Valuation) (w : Write) : Valuation :=
  if w.base = "" then σ
  else
    Function.update σ w.base
      (match w.index with
        | none => w.value
        | some i => (σ w.base).put i w.value)

namespace Machine

variable (M : Machine)

/-- The position of the element that is written to, if it is one. -/
noncomputable def index (σ : Valuation) : Place → Ending (Option ℤ)
  | .elem shape x i o => do
    let _ ← M.value σ (.place (.elem shape x i o) none)
    return some (i.eval M.interp σ).toInt
  | _ => return none

/-- Evaluates assignments, in order. -/
noncomputable def writes (σ : Valuation) : List Assignment → Ending (List Write)
  | [] => return []
  | a :: as => do
    let v ← M.value σ a.value
    let i ← M.index σ a.target
    let ws ← writes σ as
    return ⟨a.target.base, i, v⟩ :: ws

/-- Carries out assignments at the same time. -/
noncomputable def assign (k : Config) (as : List Assignment) : Ending Config := do
  let ws ← M.writes k.store as
  return { k with store := ws.foldl Write.apply k.store }

end Machine

/-- Gives the targets of a tuple its elements, the next one element `i`. -/
def Valuation.bindElements (σ : Valuation) (v : Val) (i : ℕ) : List Declaration → Valuation
  | [] => σ
  | d :: ds =>
    if d.name = "_" then σ.bindElements v (i + 1) ds
    else Valuation.bindElements (Function.update σ d.name (v.get i)) v (i + 1) ds

open Classical in
/-- A value of a type: the given one if it has the type. -/
noncomputable def Ty.pick (t : Ty) (v : Val) : Val := if t.Has v then v else t.blank

theorem Ty.has_pick {t : Ty} (ht : t.hasUnknown = false) (v : Val) : t.Has (t.pick v) := by
  unfold Ty.pick
  split_ifs with h
  · exact h
  · exact Ty.has_blank t ht

theorem Ty.Has.pick {t : Ty} {v : Val} (h : t.Has v) : t.pick v = v := if_pos h

/-! ### Loops -/

/-- What is evaluated of a variant. -/
def variantNodes (variant : Option Expr) : List Node :=
  variant.elim [] fun v => v.toValue.visit Frame.outsideQuantifiers

namespace Machine

variable (M : Machine)

/-- One iteration of a loop with a condition, the body being run as given. -/
noncomputable def whileStep (c inv : Formula) (variant : Option Expr)
    (run : Config → Ending Config) (k : Config) : Ending (Config ⊕ Config) := do
  M.check k.store .loopInvariant inv
  if ← M.truth k.store c then
    M.await k.store (variantNodes variant)
    let k' ← run k
    return .inl k'
  else return .inr k

/-- One iteration of a loop over a range. -/
noncomputable def forStep (i : String) (hi : ℤ) (inv : Formula) (run : Config → Ending Config)
    (nk : ℤ × Config) : Ending ((ℤ × Config) ⊕ Config) := do
  let k : Config := { nk.2 with store := Function.update nk.2.store i (.int nk.1) }
  M.check k.store .loopInvariant inv
  if nk.1 < hi then
    let k' ← run k
    return .inl (nk.1 + 1, k')
  else return .inr k

end Machine

/-! ### Commands -/

section

variable (M : Machine) (fuel : ℕ)

mutual

/-- Runs a command. -/
noncomputable def Command.exec : Command → Config → Ending Config
  | .declare d, k =>
    .done ⟨Function.update k.store d.name (d.type.pick (k.choices 0)), fun n => k.choices (n + 1)⟩
  | .bind d v, k => do
    let w ← M.value k.store v
    return { k with store := Function.update k.store d.name w }
  | .bindTuple ds v _, k => do
    let w ← M.value k.store v
    return { k with store := k.store.bindElements w 0 ds }
  | .assign a, k => M.assign k [a]
  | .assignAll as _, k => M.assign k as
  | .assert f _, k => do
    M.check k.store .assertion f
    return k
  | .invariant f _, k => do
    M.check k.store .invariant f
    return k
  | .assume f _, k => do
    M.assume k.store f
    return k
  | .cond bs _, k => bs.exec k
  | .whileLoop c inv variant body _, k =>
    iterate (M.whileStep c inv variant (Command.execAll body)) fuel k
  | .forRange i lo hi inv body _, k => do
    let lo ← M.value k.store lo
    let hi ← M.value k.store hi
    iterate (M.forStep i hi.toInt inv (Command.execAll body)) fuel (lo.toInt, k)
  | .noop _, k => .done k

/-- Runs the first block whose condition is true. -/
noncomputable def Branches.exec : Branches → Config → Ending Config
  | .otherwise b, k => Command.execAll b k
  | .branch c b rest, k => do
    if ← M.truth k.store c then Command.execAll b k else rest.exec k

noncomputable def Command.execAll : List Command → Config → Ending Config
  | [], k => .done k
  | c :: cs, k => do
    let k' ← c.exec k
    Command.execAll cs k'

end

end

/-! ### Functions -/

/-- The store in which inputs, and their values on entry, are the arguments. -/
def Function.entryStore (f : Function) (args : List Val) : Valuation :=
  (f.inputs.zip args).foldl
    (fun σ (d, v) => Function.update (Function.update σ d.name v) (oldName d.name) v) fun _ => .unit

/-- Runs a function on arguments up to its result. A false precondition stops the run. -/
noncomputable def Function.run (M : Machine) (fuel : ℕ) (f : Function) (args : List Val)
    (choices : ℕ → Val) : Ending (Valuation × Val) := do
  M.assume (f.entryStore args) f.precondition
  let k ← Command.execAll M fuel f.body ⟨f.entryStore args, choices⟩
  let v ← M.value k.store f.result
  return (k.store, v)

/-- Runs a function on arguments. Its postcondition has to be true at the end. -/
noncomputable def Function.execute (M : Machine) (fuel : ℕ) (f : Function) (args : List Val)
    (choices : ℕ → Val) : Ending Val := do
  let (σ, v) ← f.run M fuel args choices
  M.check (Function.update σ resultName v) .postcondition f.postcondition
  return v

/-! ### What a command leaves alone -/

theorem Write.apply_of_ne {σ : Valuation} {w : Write} {x : String} (h : w.base = "" ∨ x ≠ w.base) :
    w.apply σ x = σ x := by
  unfold Write.apply
  split_ifs with hb
  · rfl
  · rw [Function.update_of_ne (h.resolve_left hb)]

theorem Write.foldl_apply_of_ne {x : String} (ws : List Write) (σ : Valuation)
    (h : ∀ w ∈ ws, w.base = "" ∨ x ≠ w.base) : ws.foldl Write.apply σ x = σ x := by
  induction ws generalizing σ with
  | nil => rfl
  | cons w ws ih =>
    rw [List.foldl_cons, ih _ fun w' hw' => h w' (List.mem_cons_of_mem w hw')]
    exact Write.apply_of_ne (h w List.mem_cons_self)

theorem Valuation.bindElements_of_ne {x : String} (ds : List Declaration) (σ : Valuation) (v : Val)
    (i : ℕ) (h : x ∉ (Declaration.namesOf ds).members) : σ.bindElements v i ds x = σ x := by
  induction ds generalizing σ i with
  | nil => rfl
  | cons d ds ih =>
    simp only [Declaration.namesOf, SortedSet.mem_ofList, List.map_cons, List.mem_filter,
      List.mem_cons, decide_eq_true_eq, not_and, not_not] at h ih
    unfold Valuation.bindElements
    split_ifs with hd
    · exact ih σ (i + 1) fun hx => h (.inr hx)
    · rw [ih _ _ fun hx => h (.inr hx), Function.update_of_ne]
      rintro rfl
      exact hd (h (.inl rfl))

namespace Machine

variable (M : Machine)

theorem ensures_writes (σ : Valuation) (as : List Assignment) :
    (M.writes σ as).Ensures False fun ws => ws.map Write.base = as.map fun a => a.target.base := by
  induction as with
  | nil => exact rfl
  | cons a as ih =>
    unfold writes
    simp only [Ending.ensures_bind]
    refine Ending.ensures_false fun v => Ending.ensures_false fun i => ih.mono fun ws hws => ?_
    simpa [Ending.Ensures] using hws

theorem assign_frame {x : String} (as : List Assignment)
    (h : ∀ a ∈ as, x ∉ a.affected.members) (k : Config) :
    (M.assign k as).Ensures False fun k' => k'.store x = k.store x := by
  unfold assign
  rw [Ending.ensures_bind]
  refine (M.ensures_writes k.store as).mono fun ws hws => ?_
  refine Write.foldl_apply_of_ne ws k.store fun w hw => ?_
  have hbase : w.base ∈ as.map fun a => a.target.base := hws ▸ List.mem_map_of_mem hw
  obtain ⟨a, ha, hab⟩ := List.mem_map.mp hbase
  have hx := h a ha
  unfold Assignment.affected at hx
  rw [← hab]
  split_ifs at hx with hempty
  · exact .inl hempty
  · exact .inr (by simpa using hx)

end Machine

section

variable {M : Machine} {fuel : ℕ} {x : String}

mutual

/-- A command changes only the variables that it affects. -/
theorem Command.exec_frame : ∀ (c : Command), x ∉ c.affected.members → ∀ k : Config,
    (c.exec M fuel k).Ensures False fun k' => k'.store x = k.store x
  | .declare d, h, k => by
    simp only [Command.affected, Names.mem_single] at h
    simp only [Command.exec, Ending.Ensures, Function.update_of_ne h]
  | .bind d v, h, k => by
    simp only [Command.affected, Names.mem_single] at h
    simp only [Command.exec, Ending.ensures_bind]
    refine Ending.ensures_false fun w => ?_
    exact Function.update_of_ne h w k.store
  | .bindTuple ds v _, h, k => by
    simp only [Command.exec, Ending.ensures_bind]
    exact Ending.ensures_false fun w => Valuation.bindElements_of_ne ds k.store w 0 h
  | .assign a, h, k => by
    simp only [Command.exec]
    exact M.assign_frame [a] (by simpa [Command.affected] using h) k
  | .assignAll as _, h, k => by
    simp only [Command.affected, SortedSet.mem_unions, not_exists, not_and] at h
    simp only [Command.exec]
    exact M.assign_frame as (fun a ha => h a.affected (List.mem_map_of_mem ha)) k
  | .assert f _, h, k | .invariant f _, h, k | .assume f _, h, k => by
    simp only [Command.exec, Ending.ensures_bind]
    exact Ending.ensures_false fun _ => rfl
  | .cond bs _, h, k => by
    simp only [Command.exec]
    exact bs.exec_frame h k
  | .whileLoop c inv _ body _, h, k => by
    simp only [Command.exec]
    refine ensures_iterate (J := fun k' => k'.store x = k.store x) (fun k' hk' => ?_) fuel k rfl
    simp only [Machine.whileStep, Ending.ensures_bind]
    refine Ending.ensures_false fun _ => Ending.ensures_false fun b => ?_
    split_ifs
    · simp only [Ending.ensures_bind]
      refine Ending.ensures_false fun _ => ?_
      exact (Command.execAll_frame body h k').mono fun k'' hk'' => hk''.trans hk'
    · exact hk'
  | .forRange i lo hi inv body _, h, k => by
    simp only [Command.affected, SortedSet.mem_union, Names.mem_single, not_or] at h
    simp only [Command.exec, Ending.ensures_bind]
    refine Ending.ensures_false fun lo => Ending.ensures_false fun hi => ?_
    refine ensures_iterate (J := fun p => p.2.store x = k.store x) (fun nk hk' => ?_) fuel _ rfl
    have hupdate : Function.update nk.2.store i (.int nk.1) x = k.store x := by
      rw [Function.update_of_ne h.1]
      exact hk'
    simp only [Machine.forStep, Ending.ensures_bind]
    refine Ending.ensures_false fun _ => ?_
    split_ifs
    · rw [Ending.ensures_bind]
      exact (Command.execAll_frame body h.2 _).mono fun k'' hk'' => hk''.trans hupdate
    · exact hupdate
  | .noop _, h, k => by simp only [Command.exec, Ending.Ensures]

theorem Branches.exec_frame : ∀ (bs : Branches), x ∉ bs.affected.members → ∀ k : Config,
    (bs.exec M fuel k).Ensures False fun k' => k'.store x = k.store x
  | .otherwise b, h, k => Command.execAll_frame b h k
  | .branch c b rest, h, k => by
    simp only [Branches.affected, SortedSet.mem_union, not_or] at h
    simp only [Branches.exec, Ending.ensures_bind]
    refine Ending.ensures_false fun cond => ?_
    split_ifs
    · exact Command.execAll_frame b h.1 k
    · exact rest.exec_frame h.2 k

theorem Command.execAll_frame : ∀ (cs : List Command), x ∉ (Command.affectedAll cs).members →
    ∀ k : Config, (Command.execAll M fuel cs k).Ensures False fun k' => k'.store x = k.store x
  | [], h, k => by simp only [Command.execAll, Ending.Ensures]
  | c :: cs, h, k => by
    simp only [Command.affectedAll, SortedSet.mem_union, not_or] at h
    simp only [Command.execAll, Ending.ensures_bind]
    refine (c.exec_frame h.1 k).mono fun k' hk' => ?_
    exact (Command.execAll_frame cs h.2 k').mono fun k'' hk'' => hk''.trans hk'

end

/-- A block changes only the variables that it affects. -/
theorem Command.execAll_leaves (cs : List Command) (k : Config) :
    (Command.execAll M fuel cs k).Ensures False fun k' =>
      ∀ x, x ∉ (Command.affectedAll cs).members → k'.store x = k.store x :=
  Ending.ensures_forall fun _ => Ending.ensures_forall fun h => Command.execAll_frame cs h k

end

end Verdict
