import Verdict.Proofs.Schedules

/-! # Reports do not depend on the schedule

The results of checking obligations are those of checking one obligation after another; if the first bad
result stops the pool, some may be missing, but then one of the others is bad. So every function is
reported with its own results in their order, and whether a report is verified depends on neither the
number of workers, nor the schedule, nor whether to stop at the first bad result
(`Program.verify_schedule_irrelevant`).

A pool that is stopped from outside leaves out results without a bad one, and then a report is verified
although nothing has been checked (`Program.verified_of_cancelled`). An obligation that does have a result
in a verified report has been checked (`Program.verified_earned`). -/

namespace Verdict

/-- An obligation with what a solver finds out about it. -/
def Obligation.result (solver : Solver) (o : Obligation) : Result := ⟨o, o.check solver⟩

theorem Obligation.isVerified_check_iff {solver : Solver} {o : Obligation} :
    (o.check solver).isVerified = true ↔ ∃ q, o.query = .ok q ∧ solver q = .ok .unsat := by
  unfold Obligation.check
  cases o.query with
  | error e => simp [Finding.isVerified]
  | ok q =>
    rcases hs : solver q with e | a
    · simp [hs, Finding.ofReply, Finding.isVerified]
    · cases a <;> simp [hs, Finding.ofReply, Finding.isVerified]

/-! ### Obligations and their results -/

namespace CheckPlan

variable {plan : CheckPlan} {solver : Solver} {os : List Obligation}

/-- The pool after everything that a plan lets happen. -/
def final (plan : CheckPlan) (solver : Solver) (os : List Obligation) : Pool os.length Result :=
  (Pool.initial os.length Result).run (plan.rules solver os) (plan.schedule os.length)

/-- Whether a plan goes on until nothing more can happen. -/
def Ends (plan : CheckPlan) (solver : Solver) (os : List Obligation) : Prop :=
  (plan.final solver os).AtRest (plan.rules solver os)

theorem map_outcome (plan : CheckPlan) (solver : Solver) (os : List Obligation) :
    (List.finRange os.length).map (plan.rules solver os).outcome =
      os.map (Obligation.result solver) := by
  conv_rhs => rw [← List.map_getElem_finRange os, List.map_map]
  rfl

theorem consistent_final (plan : CheckPlan) (solver : Solver) (os : List Obligation) :
    (plan.final solver os).Consistent (plan.rules solver os) :=
  Pool.consistent_run _ _

theorem discharge_sublist (hends : plan.Ends solver os) :
    (discharge plan solver os).Sublist (os.map (Obligation.result solver)) := by
  rw [← map_outcome plan]
  exact Pool.results_sublist (consistent_final plan solver os) hends

theorem discharge_eq (hends : plan.Ends solver os) (hgoes : (plan.final solver os).stopped = false) :
    discharge plan solver os = os.map (Obligation.result solver) := by
  rw [← map_outcome plan]
  exact Pool.results_eq (consistent_final plan solver os) hends hgoes

/-- If checking is stopped, then by an obligation that is not found to hold. -/
theorem exists_not_verified (hends : plan.Ends solver os) (hcancel : .cancel ∉ plan.schedule os.length)
    (hstopped : (plan.final solver os).stopped = true) :
    plan.failFast = true ∧ ∃ r ∈ discharge plan solver os, r.finding.isVerified = false := by
  obtain ⟨hfast, r, hr, hbad⟩ := Pool.exists_isBad (consistent_final plan solver os) hends
    (Pool.earned_run hcancel) hstopped
  exact ⟨hfast, r, hr, by simpa [rules] using hbad⟩

end CheckPlan

/-! ### Numbers -/

/-- The obligations of all functions that have any. -/
def Obligation.joined (gs : List (String × Except GenerationError (List Obligation))) :
    List Obligation :=
  gs.flatMap fun g => g.2.toOption.getD []

/-- Numbers the obligations of functions through, from `i` on. -/
def Obligation.numberEach (i : ℕ) : List (String × Except GenerationError (List Obligation)) →
    List (String × Except GenerationError (List Obligation))
  | [] => []
  | (name, .error e) :: rest => (name, .error e) :: numberEach i rest
  | (name, .ok os) :: rest => (name, .ok (numberFrom i os)) :: numberEach (i + os.length) rest

namespace Obligation

theorem numberFrom_append (i : ℕ) (os os' : List Obligation) :
    numberFrom i (os ++ os') = numberFrom i os ++ numberFrom (i + os.length) os' := by
  induction os generalizing i with
  | nil => rfl
  | cons o os ih =>
    rw [List.cons_append, numberFrom, ih, numberFrom, List.cons_append, List.length_cons]
    congr 3
    omega

theorem index_numberFrom {i : ℕ} {os : List Obligation} {o : Obligation} (h : o ∈ numberFrom i os) :
    i ≤ o.index ∧ o.index < i + os.length := by
  induction os generalizing i with
  | nil => cases h
  | cons o' os ih =>
    rw [List.length_cons]
    rcases List.mem_cons.mp h with rfl | h
    · dsimp only
      omega
    · have := ih h
      omega

theorem joined_cons_error (name : String) (e : GenerationError)
    (gs : List (String × Except GenerationError (List Obligation))) :
    joined ((name, .error e) :: gs) = joined gs := rfl

theorem joined_cons_ok (name : String) (os : List Obligation)
    (gs : List (String × Except GenerationError (List Obligation))) :
    joined ((name, .ok os) :: gs) = os ++ joined gs := rfl

/-- The obligations of one function are those with its numbers. -/
theorem filter_index {before own after : List Obligation} {i j : ℕ}
    (hbefore : ∀ o ∈ before, o.index < i) (hown : ∀ o ∈ own, i ≤ o.index ∧ o.index < j)
    (hafter : ∀ o ∈ after, j ≤ o.index) :
    (before ++ (own ++ after)).filter (fun o => i ≤ o.index && o.index < j) = own := by
  rw [List.filter_append, List.filter_append, List.filter_eq_nil_iff.mpr,
    List.filter_eq_self.mpr, List.filter_eq_nil_iff.mpr, List.nil_append, List.append_nil]
  · intro o ho
    have := hafter o ho
    simp only [Bool.and_eq_true, decide_eq_true_eq]
    omega
  · intro o ho
    simpa using hown o ho
  · intro o ho
    have := hbefore o ho
    simp only [Bool.and_eq_true, decide_eq_true_eq]
    omega

end Obligation

/-! ### Functions and their results -/

/-- Whether a report tells of a function with its obligations. If it is complete, it has a result for each
of them. -/
structure FunctionReport.Tells (solver : Solver) (complete : Prop)
    (own : String × Except GenerationError (List Obligation)) (f : FunctionReport) : Prop where
  name : f.name = own.1
  error : f.error = match own.2 with
    | .error e => some e
    | .ok _ => none
  results : f.results.Sublist ((own.2.toOption.getD []).map (Obligation.result solver))
  complete : complete → f.results = (own.2.toOption.getD []).map (Obligation.result solver)

namespace Report

open Obligation

variable {solver : Solver} {results : List Result} {first : ℕ}
  {gs : List (String × Except GenerationError (List Obligation))}

theorem tells_assemble {complete : Prop} (before : List Obligation)
    (hbefore : ∀ o ∈ before, o.index < first)
    (hresults : results.Sublist
      ((before ++ numberFrom first (joined gs)).map (Obligation.result solver)))
    (hcomplete : complete →
      results = (before ++ numberFrom first (joined gs)).map (Obligation.result solver)) :
    List.Forall₂ (FunctionReport.Tells solver complete) (numberEach first gs)
      (assemble results first gs) := by
  induction gs generalizing first before with
  | nil => exact .nil
  | cons g gs ih =>
    obtain ⟨name, e | os⟩ := g
    · rw [joined_cons_error] at hresults hcomplete
      exact .cons ⟨rfl, rfl, .slnil, fun _ => rfl⟩ (ih before hbefore hresults hcomplete)
    · rw [joined_cons_ok, numberFrom_append] at hresults hcomplete
      have hown : (((before ++ (numberFrom first os ++
          numberFrom (first + os.length) (joined gs))).map (Obligation.result solver)).filter
          fun r => first ≤ r.obligation.index && r.obligation.index < first + os.length) =
          (numberFrom first os).map (Obligation.result solver) := by
        rw [List.filter_map]
        exact congrArg _ (filter_index hbefore (fun o ho => index_numberFrom ho)
          fun o ho => (index_numberFrom ho).1)
      refine .cons ⟨rfl, rfl, ?_, fun hc => ?_⟩ (ih (before ++ numberFrom first os) ?_ ?_ ?_)
      · exact hown ▸ hresults.filter _
      · exact hown ▸ congrArg _ (hcomplete hc)
      · intro o ho
        rcases List.mem_append.mp ho with ho | ho
        · have := hbefore o ho
          omega
        · exact (index_numberFrom ho).2
      · rwa [List.append_assoc]
      · rwa [List.append_assoc]

/-- A result is reported for the function whose numbers include its own. -/
theorem mem_results_assemble {r : Result} :
    r ∈ (assemble results first gs).flatMap FunctionReport.results ↔
      r ∈ results ∧ first ≤ r.obligation.index ∧
        r.obligation.index < first + (joined gs).length := by
  induction gs generalizing first with
  | nil =>
    simp only [assemble, List.flatMap_nil, List.not_mem_nil, joined, List.length_nil, false_iff]
    omega
  | cons g gs ih =>
    obtain ⟨name, e | os⟩ := g
    · rw [joined_cons_error, ← ih]
      simp [assemble]
    · rw [joined_cons_ok, List.length_append]
      simp only [assemble, List.flatMap_cons, List.mem_append, List.mem_filter, Bool.and_eq_true,
        decide_eq_true_eq, ih]
      constructor
      · rintro (⟨hr, h⟩ | ⟨hr, h⟩)
        · exact ⟨hr, by omega⟩
        · exact ⟨hr, by omega⟩
      · rintro ⟨hr, h⟩
        by_cases hlt : r.obligation.index < first + os.length
        · exact .inl ⟨hr, by omega⟩
        · exact .inr ⟨hr, by omega⟩

theorem errors_assemble :
    (∀ f ∈ assemble results first gs, f.error = none) ↔ ∀ g ∈ gs, ∃ os, g.2 = .ok os := by
  induction gs generalizing first with
  | nil => simp [assemble]
  | cons g gs ih =>
    obtain ⟨name, e | os⟩ := g
    · simp [assemble]
    · simp [assemble, ih]

theorem verified_iff_results (r : Report) :
    r.verified = true ↔
      (∀ f ∈ r.functions, f.error = none) ∧ ∀ x ∈ r.results, x.finding.isVerified = true := by
  simp only [verified, FunctionReport.verified, results, List.all_eq_true, Bool.and_eq_true,
    Option.isNone_iff_eq_none, List.mem_flatMap, forall_exists_index, and_imp]
  constructor
  · exact fun h => ⟨fun f hf => (h f hf).1, fun x f hf hx => (h f hf).2 x hx⟩
  · exact fun h f hf => ⟨h.1 f hf, fun x hx => h.2 x f hf hx⟩

end Report

/-! ### Programs -/

namespace Program

open Obligation

variable {p : Program} {modes : Modes} {plan : CheckPlan} {solver : Solver}

/-- The functions of a program with their obligations, or why they have none. -/
def generated (p : Program) (modes : Modes) :
    List (String × Except GenerationError (List Obligation)) :=
  p.functions.map fun f => (f.name, f.obligations modes p.functions)

/-- The functions of a program with their obligations, which are numbered through the program. -/
def numbered (p : Program) (modes : Modes) :
    List (String × Except GenerationError (List Obligation)) :=
  numberEach 0 (p.generated modes)

theorem obligations_eq (p : Program) (modes : Modes) :
    (p.obligations modes).1 = numberFrom 0 (joined (p.generated modes)) := by
  simp [obligations, generated, joined, List.flatMap_map]

theorem verify_eq (p : Program) (modes : Modes) (plan : CheckPlan) (solver : Solver) :
    (p.verify modes plan solver).functions =
      Report.assemble (discharge plan solver (p.obligations modes).1) 0 (p.generated modes) := rfl

/-- Every function is reported with its own results. -/
theorem tells_verify (hends : plan.Ends solver (p.obligations modes).1) :
    List.Forall₂
      (FunctionReport.Tells solver ((plan.final solver (p.obligations modes).1).stopped = false))
      (p.numbered modes) (p.verify modes plan solver).functions := by
  rw [verify_eq]
  refine Report.tells_assemble [] (by simp) ?_ fun hgoes => ?_
  · simpa [← obligations_eq] using CheckPlan.discharge_sublist hends
  · simpa [← obligations_eq] using CheckPlan.discharge_eq hends hgoes

theorem mem_results_verify (hends : plan.Ends solver (p.obligations modes).1) {r : Result} :
    r ∈ (p.verify modes plan solver).results ↔
      r ∈ discharge plan solver (p.obligations modes).1 := by
  rw [Report.results, verify_eq, Report.mem_results_assemble]
  refine ⟨fun h => h.1, fun hr => ⟨hr, Nat.zero_le _, ?_⟩⟩
  obtain ⟨o, ho, rfl⟩ := List.mem_map.mp ((CheckPlan.discharge_sublist hends).subset hr)
  rw [obligations_eq] at ho
  exact (index_numberFrom ho).2

theorem verified_iff_discharge (hends : plan.Ends solver (p.obligations modes).1) :
    (p.verify modes plan solver).verified = true ↔
      (∀ f ∈ p.functions, ∃ os, f.obligations modes p.functions = .ok os) ∧
        ∀ r ∈ discharge plan solver (p.obligations modes).1, r.finding.isVerified = true := by
  rw [Report.verified_iff_results, verify_eq, Report.errors_assemble]
  simp only [mem_results_verify hends, generated, List.forall_mem_map]

/-- A report is verified if all obligations are found to hold, unless checking is stopped from outside. -/
theorem verified_iff (hends : plan.Ends solver (p.obligations modes).1)
    (hcancel : .cancel ∉ plan.schedule (p.obligations modes).1.length) :
    (p.verify modes plan solver).verified = true ↔
      (∀ f ∈ p.functions, ∃ os, f.obligations modes p.functions = .ok os) ∧
        ∀ o ∈ (p.obligations modes).1, (o.check solver).isVerified = true := by
  rw [verified_iff_discharge hends]
  refine and_congr_right fun _ => ⟨fun h => ?_, fun h r hr => ?_⟩
  · -- A pool with good results only has not been stopped.
    have hgoes : (plan.final solver (p.obligations modes).1).stopped = false := by
      by_contra hstopped
      obtain ⟨-, r, hr, hbad⟩ := CheckPlan.exists_not_verified hends hcancel (by simpa using hstopped)
      rw [h r hr] at hbad
      cases hbad
    rw [CheckPlan.discharge_eq hends hgoes] at h
    exact fun o ho => h _ (List.mem_map_of_mem ho)
  · obtain ⟨o, ho, rfl⟩ := List.mem_map.mp ((CheckPlan.discharge_sublist hends).subset hr)
    exact h o ho

/-- The results of a program depend on neither the number of workers nor the schedule: at the end of every
schedule everything is done, after at most four steps for each obligation, and the results are those of
checking one obligation after another. If checking stops at the first bad result then some may be missing,
and one of the others is bad. So every function has its own results, and all schedules agree on whether
the report is verified. -/
theorem verify_schedule_irrelevant (p : Program) (modes : Modes) (solver : Solver) :
    (∀ (plan : CheckPlan) (os : List Obligation), .cancel ∉ plan.schedule os.length →
      ((Pool.initial os.length Result).Happens (plan.rules solver os) (plan.schedule os.length) →
        (plan.schedule os.length).length ≤ 4 * os.length) ∧
      (plan.Ends solver os →
        (plan.final solver os).isDone = true ∧
        (plan.failFast = false → discharge plan solver os = os.map (Obligation.result solver)) ∧
        (discharge plan solver os).Sublist (os.map (Obligation.result solver)) ∧
        (discharge plan solver os ≠ os.map (Obligation.result solver) →
          ∃ r ∈ discharge plan solver os, r.finding.isVerified = false))) ∧
    (∀ plan : CheckPlan, .cancel ∉ plan.schedule (p.obligations modes).1.length →
      plan.Ends solver (p.obligations modes).1 →
        List.Forall₂ (FunctionReport.Tells solver (plan.failFast = false)) (p.numbered modes)
          (p.verify modes plan solver).functions ∧
        ∀ plan' : CheckPlan, .cancel ∉ plan'.schedule (p.obligations modes).1.length →
          plan'.Ends solver (p.obligations modes).1 →
            (p.verify modes plan solver).verified = (p.verify modes plan' solver).verified) := by
  have hgoes : ∀ {plan : CheckPlan} {os : List Obligation}, .cancel ∉ plan.schedule os.length →
      plan.Ends solver os → plan.failFast = false → (plan.final solver os).stopped = false := by
    intro plan os hcancel hends hslow
    by_contra hstopped
    have hfast := (CheckPlan.exists_not_verified hends hcancel (by simpa using hstopped)).1
    rw [hslow] at hfast
    cases hfast
  refine ⟨fun plan os hcancel => ⟨Pool.length_le_of_happens hcancel, fun hends =>
    ⟨Pool.isDone_of_atRest hends, ?_, CheckPlan.discharge_sublist hends, fun hmissing => ?_⟩⟩,
    fun plan hcancel hends => ⟨?_, fun plan' hcancel' hends' => ?_⟩⟩
  · exact fun hslow => CheckPlan.discharge_eq hends (hgoes hcancel hends hslow)
  · refine (CheckPlan.exists_not_verified hends hcancel ?_).2
    by_contra hstopped
    exact hmissing (CheckPlan.discharge_eq hends (by simpa using hstopped))
  · refine (tells_verify hends).imp fun own f h => ?_
    exact ⟨h.name, h.error, h.results, fun hslow => h.complete (hgoes hcancel hends hslow)⟩
  · exact Bool.eq_iff_iff.mpr ((verified_iff hends hcancel).trans (verified_iff hends' hcancel').symm)

end Program

/-! ### Plans that end early -/

/-- Asserts its input, and then that its input is false. -/
def Function.undecided : Function where
  name := "undecided"
  inputs := [⟨"b", .bool, false, none⟩]
  output := .unit
  precondition := .lit true
  postcondition := .lit true
  result := .unit none
  body := [.assert (.value (.var "b")) none, .assert (.not (.value (.var "b"))) none]
  origin := none

def Program.undecided : Program := ⟨[.undecided]⟩

/-- The second of two obligations is checked before the first, which is then given up. -/
def CheckPlan.overtaking : CheckPlan where
  workers := 2
  failFast := true
  schedule
    | 2 => [.take, .take, .start 0, .start 1, .finish 1, .collect, .giveUp 0, .collect]
    | n => Pool.inTurn n

/-- The pool is stopped from outside after the first of two obligations has been checked. -/
def CheckPlan.interrupted : CheckPlan where
  workers := 1
  failFast := false
  schedule
    | 2 => [.take, .start 0, .finish 0, .collect, .cancel, .take, .start 1, .collect]
    | n => Pool.inTurn n

/-- The solver that decides nothing. -/
def Solver.undecided : Solver := fun _ => .ok (.unknown "")

namespace Program

open Obligation

theorem verified_overtaking :
    CheckPlan.overtaking.Ends .undecided (undecided.obligations .standard).1 ∧
      (∃ r ∈ discharge .overtaking .undecided (undecided.obligations .standard).1,
        r.finding.isVerified = false) ∧
      (undecided.verify .standard .overtaking .undecided).verified =
        (undecided.verify .standard (.inTurn 1 false) .undecided).verified := by
  have hends : CheckPlan.overtaking.Ends .undecided (undecided.obligations .standard).1 :=
    Pool.atRest_of_isDone (by decide +kernel)
  have hcancel : .cancel ∉
      CheckPlan.overtaking.schedule (undecided.obligations .standard).1.length := by decide +kernel
  have hends' : (CheckPlan.inTurn 1 false).Ends .undecided (undecided.obligations .standard).1 :=
    Pool.atRest_of_isDone (by decide +kernel)
  have hcancel' : .cancel ∉
      (CheckPlan.inTurn 1 false).schedule (undecided.obligations .standard).1.length := by
    decide +kernel
  have hlength : (discharge .overtaking .undecided (undecided.obligations .standard).1).length ≠
      ((undecided.obligations .standard).1.map (Obligation.result .undecided)).length := by
    decide +kernel
  have h := verify_schedule_irrelevant undecided .standard .undecided
  exact ⟨hends,
    ((h.1 _ _ hcancel).2 hends).2.2.2 fun heq => hlength (congrArg List.length heq),
    (h.2 _ hcancel hends).2 _ hcancel' hends'⟩

/-- If a report is verified, then the obligations of all functions have been generated, and the solver has
found that each of them holds, unless it was left out because the pool was stopped from outside. -/
theorem verified_earned (p : Program) (modes : Modes) (plan : CheckPlan) (solver : Solver)
    (hends : plan.Ends solver (p.obligations modes).1)
    (hverified : (p.verify modes plan solver).verified = true) :
    (∀ f ∈ p.functions, ∃ os, f.obligations modes p.functions = .ok os) ∧
      ∀ o ∈ (p.obligations modes).1, (∃ q, o.query = .ok q ∧ solver q = .ok .unsat) ∨
        .cancel ∈ plan.schedule (p.obligations modes).1.length ∧
          ∀ r ∈ (p.verify modes plan solver).results, r.obligation ≠ o := by
  have hdischarge := (verified_iff_discharge hends).mp hverified
  refine ⟨hdischarge.1, fun o ho => ?_⟩
  by_cases hcancel : .cancel ∈ plan.schedule (p.obligations modes).1.length
  · by_cases hr : ∃ r ∈ (p.verify modes plan solver).results, r.obligation = o
    · obtain ⟨r, hr, rfl⟩ := hr
      have hmem := (mem_results_verify hends).mp hr
      obtain ⟨o', -, rfl⟩ := List.mem_map.mp ((CheckPlan.discharge_sublist hends).subset hmem)
      exact .inl (isVerified_check_iff.mp (hdischarge.2 _ hmem))
    · exact .inr ⟨hcancel, by simpa using hr⟩
  · exact .inl (isVerified_check_iff.mp (((verified_iff hends hcancel).mp hverified).2 o ho))

/-- A report is verified although no obligation has been checked, if the pool is stopped from outside
before anything happens. -/
theorem verified_of_cancelled :
    (CheckPlan.inTurn 1 false).cancelled.Ends .undecided (undecided.obligations .standard).1 ∧
      (undecided.verify .standard (CheckPlan.inTurn 1 false).cancelled .undecided).verified = true ∧
      ∃ o ∈ (undecided.obligations .standard).1, ∀ q, o.query = .ok q →
        Solver.undecided q ≠ .ok .unsat := by
  refine ⟨Pool.atRest_of_isDone (by decide +kernel), by decide +kernel, ?_⟩
  have hlength : 0 < (undecided.obligations .standard).1.length := by decide +kernel
  obtain ⟨o, ho⟩ := List.exists_mem_of_length_pos hlength
  exact ⟨o, ho, fun q _ => by simp [Solver.undecided]⟩

theorem verified_interrupted :
    CheckPlan.interrupted.Ends (fun _ => .ok .unsat) (undecided.obligations .standard).1 ∧
      (undecided.verify .standard .interrupted fun _ => .ok .unsat).verified = true ∧
      ∀ o ∈ (undecided.obligations .standard).1, (∃ q, o.query = .ok q) ∨
        ∀ r ∈ (undecided.verify .standard .interrupted fun _ => .ok .unsat).results,
          r.obligation ≠ o := by
  have hends : CheckPlan.interrupted.Ends (fun _ => .ok .unsat)
      (undecided.obligations .standard).1 := Pool.atRest_of_isDone (by decide +kernel)
  have hverified :
      (undecided.verify .standard .interrupted fun _ => .ok .unsat).verified = true := by
    decide +kernel
  have h := verified_earned undecided .standard .interrupted _ hends hverified
  exact ⟨hends, hverified, fun o ho => (h.2 o ho).imp (fun ⟨q, hq, _⟩ => ⟨q, hq⟩) And.right⟩

end Program

end Verdict
