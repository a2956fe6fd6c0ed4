import Verdict.Proofs.Inference
import Verdict.Proofs.Scopes

/-! # Which types inference finds

Inference and the scoping rules each keep a scope of their own, through inputs, patterns, nested blocks and
iterators. At every point that inference comes to without a fault, what the rules know of a variable inference
knows too, entry values apart. So a binding gets its type if the rules can type its value without the type of
an entry value (`Program.infer_resolves`), and the rules do not miss a type there.

Entry values are known to the rules throughout the body, and not to inference. A binding whose type is that of
an entry value stays without one (`Program.entry_value_unresolved`). -/

namespace Verdict

/-! ### Positions -/

/-- The blocks of a cascade of conditions. -/
def Branches.blocks : Branches → List (List Command)
  | .otherwise b => [b]
  | .branch _ b rest => b :: rest.blocks

namespace Command

/-- The blocks inside a command. -/
def blocks : Command → List (List Command)
  | .cond bs _ => bs.blocks
  | .forRange _ _ _ _ body _ | .whileLoop _ _ _ body _ => [body]
  | _ => []

/-- A command with a single block inside. -/
def withBlock (b : List Command) : Command → Command
  | .cond _ o => .cond (.otherwise b) o
  | .forRange i lo hi inv _ o => .forRange i lo hi inv b o
  | .whileLoop c inv variant _ o => .whileLoop c inv variant b o
  | c => c

end Command

/-- The environment in which the rules check the blocks inside a command. -/
def Scoping.Env.inside (e : Scoping.Env) : Command → Scoping.Env
  | .forRange i _ _ _ _ _ => Scoping.declare e i .i32 false
  | _ => e

/-- The scope of the blocks inside a command. -/
def Scope.inside (Γ : Scope) : Command → Scope
  | .forRange i _ _ _ _ _ => Γ.declare i .i32
  | _ => Γ

/-- The way from a block to a command in it, at any depth: it is the first one, or in the rest of the block, or
in one of the blocks inside the first one. -/
inductive Site where
  | here
  | next (π : Site)
  | inside (k : ℕ) (π : Site)

namespace Site

/-- The command at a position of a block. -/
def command? : Site → List Command → Option Command
  | _, [] => none
  | here, c :: _ => some c
  | next π, _ :: cs => π.command? cs
  | inside k π, c :: _ => c.blocks[k]?.bind π.command?

/-- The environment in which the rules check the command at a position. -/
def env? : Site → Scoping.Env → List Command → Option Scoping.Env
  | _, _, [] => none
  | here, e, _ :: _ => some e
  | next π, e, c :: cs => π.env? (Scoping.command e c).1 cs
  | inside k π, e, c :: _ => c.blocks[k]?.bind (π.env? (e.inside c))

/-- The commands that are passed on the way to a position: of the command that it is inside of, one block and
of that block what comes before. -/
def before : Site → List Command → List Command
  | _, [] => []
  | here, _ :: _ => []
  | next π, c :: cs => c :: π.before cs
  | inside k π, c :: _ =>
    match c.blocks[k]? with
    | some b => [c.withBlock (π.before b)]
    | none => []

end Site

/-! ### Two scopes at every position -/

/-- Whether a scope of inference gives the variables of an environment of the rules their types, as far as a
condition on names asks for it. -/
structure Scoping.Env.Agrees (e : Scoping.Env) (Γ : Scope) (K : String → Prop) : Prop
    extends e.scope.Serves Γ K where
  wildcard : e.vars.get? "_" = none

namespace Scoping.Env.Agrees

variable {e : Scoping.Env} {Γ : Scope} {K : String → Prop}

theorem declare (h : e.Agrees Γ K) (x : String) (t : Ty) (m : Bool) :
    (Scoping.declare e x t m).Agrees (Γ.declare x t) K := by
  refine ⟨⟨fun y hy u hu => ?_, fun f => ?_⟩, Scoping.wildcard_declare h.wildcard x t m⟩
  · rw [Scope.type?_declare]
    unfold Scoping.declare at hu
    split_ifs at hu with hx
    · -- The rules do not declare a wildcard, so it is no variable of theirs.
      have hne : x ≠ y := by
        rintro rfl
        rw [Scope.type?, type?_scope, hx, h.wildcard] at hu
        cases hu
      rw [if_neg hne]
      exact h.types y hy u hu
    · rw [Scope.type?, type?_scope, get?_add] at hu
      split_ifs at hu ⊢ with hxy
      · exact hu
      · refine h.types y hy u ?_
        rw [Scope.type?, type?_scope]
        exact hu
  · have hfunctions := Scoping.functions_declare e x t m
    have hsame : (Scoping.declare e x t m).scope.function? f = e.scope.function? f := by
      unfold Scope.function? Scoping.Env.scope
      rw [hfunctions]
    rw [hsame]
    exact h.results f

theorem declareAll (o : Origin) (ds : List Declaration) (h : e.Agrees Γ K) :
    (Scoping.declareAll o e ds).1.Agrees (Declaration.declareAll Γ ds) K := by
  unfold Declaration.declareAll
  induction ds generalizing e Γ with
  | nil => exact h
  | cons d ds ih =>
    simp only [Scoping.declareAll, List.foldl_cons]
    have hd := h.declare d.name d.type d.mutable
    split_ifs with hname
    · refine ih ?_
      rwa [Scoping.declare, if_pos hname]
    · exact ih hd

/-- A variable that inference does not know may be added if the condition leaves it out. -/
theorem add (h : e.Agrees Γ K) {x : String} (hx : ¬ K x) (hwild : x ≠ "_") (t : Ty) (m : Bool) :
    (e.add x t m).Agrees Γ K := by
  refine ⟨⟨fun y hy u hu => ?_, h.results⟩, by rw [get?_add, if_neg hwild, h.wildcard]⟩
  have hne : x ≠ y := fun hxy => hx (hxy ▸ hy)
  rw [Scope.type?, type?_scope, get?_add, if_neg hne] at hu
  refine h.types y hy u ?_
  rw [Scope.type?, type?_scope]
  exact hu

/-- The agreement after a command in which inference meets no fault. -/
theorem command (h : e.Agrees Γ K) {function : String} {c : Command}
    (hc : (Inference.command function Γ c).faults = []) :
    (Scoping.command e (Inference.command function Γ c).node).1.Agrees
      (Inference.command function Γ c).scope K := by
  cases c with
  | declare d => exact h.declare d.name d.type d.mutable
  | bind d v => exact h.declare _ _ _
  | bindTuple ds v o =>
    simp only [Inference.command] at hc ⊢
    cases Inference.destructs function Γ ds v o with
    | untyped _ hresult | fits _ _ _ hresult =>
      rw [hresult]
      exact h.declareAll o _
    | misfits _ _ hresult =>
      rw [hresult] at hc
      cases hc
  | _ => exact h

theorem inside (h : e.Agrees Γ K) (c : Command) : (e.inside c).Agrees (Γ.inside c) K := by
  cases c with
  | forRange i => exact h.declare i .i32 false
  | _ => exact h

end Scoping.Env.Agrees

namespace Inference

variable {function : String} {Γ : Scope} {c : Command}

theorem blocks_branches (function : String) (Γ : Scope) (bs : Branches) :
    (branches function Γ bs).node.blocks = bs.blocks.map fun b => (block function Γ b).node := by
  cases bs with
  | otherwise => rfl
  | branch _ b rest => exact congrArg (List.cons (block function Γ b).node) (blocks_branches function Γ rest)

/-- Inference goes through the blocks inside a command. -/
theorem blocks_command (function : String) (Γ : Scope) (c : Command) :
    (command function Γ c).node.blocks = c.blocks.map fun b => (block function (Γ.inside c) b).node := by
  cases c with
  | cond bs o => exact blocks_branches function Γ bs
  | bindTuple ds v o =>
    simp only [command]
    cases destructs function Γ ds v o with
    | untyped _ h | fits _ _ _ h | misfits _ _ h =>
      rw [h]
      rfl
  | _ => rfl

theorem inside_node {k : ℕ} {b : List Command} (hb : c.blocks[k]? = some b) (e : Scoping.Env) :
    e.inside (command function Γ c).node = e.inside c := by
  cases c with
  | cond | forRange | whileLoop => rfl
  | _ => cases hb

theorem faults_withBlock {k : ℕ} {b b' : List Command} (hb : c.blocks[k]? = some b) :
    (block function Γ [c.withBlock b']).faults = (block function (Γ.inside c) b').faults := by
  cases c with
  | cond | forRange | whileLoop => exact List.append_nil _
  | _ => cases hb

/-- At a binding that inference comes to without a fault, its scope agrees with the environment of the rules
in the block after inference. -/
theorem exists_agrees (function : String) {K : String → Prop} (π : Site) {e : Scoping.Env}
    {cs : List Command} {d : Declaration} {v : Value} (h : e.Agrees Γ K)
    (hbind : π.command? cs = some (.bind d v))
    (hclean : (block function Γ (π.before cs)).faults = []) :
    ∃ Γ' e', π.command? (block function Γ cs).node = some (.bind (bind Γ' d v) v) ∧
      π.env? e (block function Γ cs).node = some e' ∧ e'.Agrees Γ' K := by
  induction π generalizing Γ e cs with
  | here =>
    cases cs with
    | nil => cases hbind
    | cons c cs =>
      obtain rfl := Option.some.inj hbind
      exact ⟨Γ, e, rfl, rfl, h⟩
  | next π ih =>
    cases cs with
    | nil => cases hbind
    | cons c cs =>
      simp only [Site.before, block, List.append_eq_nil_iff] at hclean
      exact ih (h.command hclean.1) hbind hclean.2
  | inside k π ih =>
    cases cs with
    | nil => cases hbind
    | cons c cs =>
      obtain ⟨b, hb, hbind⟩ := Option.bind_eq_some_iff.mp hbind
      simp only [Site.before, hb, faults_withBlock hb] at hclean
      obtain ⟨Γ', e', hcommand, henv, hagree⟩ := ih (h.inside c) hbind hclean
      have hnode : (command function Γ c).node.blocks[k]? = some (block function (Γ.inside c) b).node := by
        rw [blocks_command, List.getElem?_map, hb]
        rfl
      refine ⟨Γ', e', ?_, ?_, hagree⟩
      · simp only [block, Site.command?, hnode, Option.bind_some]
        exact hcommand
      · simp only [block, Site.env?, hnode, Option.bind_some, inside_node hb]
        exact henv

/-- On entry the scope of the inputs agrees with the environment of the rules, entry values apart. -/
theorem agrees_entry (p : Program) (f : Function) :
    (f.entryEnv p.infer.1.functions).Agrees (inputs p f) fun x => ∀ i ∈ f.inputs, x ≠ oldName i.name := by
  have hinputs : ∀ (ds : List Declaration) {K : String → Prop} {e : Scoping.Env} {Γ : Scope}, e.Agrees Γ K →
      (ds.foldl (fun e d => Scoping.declare e d.name d.type d.mutable) e).Agrees
        (ds.foldl (fun s d => s.declare d.name d.type) Γ) K := by
    intro ds
    induction ds with
    | nil => exact fun h => h
    | cons d ds ih => exact fun h => ih (h.declare d.name d.type d.mutable)
  have hentries : ∀ (ds : List Declaration) {K : String → Prop} {e : Scoping.Env} {Γ : Scope}, e.Agrees Γ K →
      (∀ d ∈ ds, ¬ K (oldName d.name)) →
      (ds.foldl (fun (e : Scoping.Env) d => e.add (oldName d.name) d.type false) e).Agrees Γ K := by
    intro ds
    induction ds with
    | nil => exact fun h _ => h
    | cons d ds ih =>
      intro K e Γ h hds
      have hwild : oldName d.name ≠ "_" := fun hd => absurd (hd ▸ quote_mem_oldName d.name) (by decide)
      exact ih (h.add (hds d List.mem_cons_self) hwild d.type false)
        fun d' hd' => hds d' (List.mem_cons_of_mem d hd')
  have hstart : Scoping.Env.Agrees ⟨.empty, p.infer.1.functions⟩ ⟨.empty, p.functions⟩
      fun x => ∀ i ∈ f.inputs, x ≠ oldName i.name := by
    refine ⟨⟨fun x _ t hx => ?_, output_infer p⟩, rfl⟩
    cases hx
  exact hentries f.inputs (hinputs f.inputs hstart) fun d hd hK => hK d hd rfl

end Inference

/-! ### Bindings that get their types -/

theorem Scoping.cause_ne_unknownType {e : Scoping.Env} {o : Origin} {x : String} {t : Ty}
    (h : t.hasUnknown = false) : ∀ fault ∈ Scoping.declareFaults e o x t, fault.cause ≠ .unknownType x := by
  intro fault hfault
  unfold Scoping.declareFaults at hfault
  rw [h] at hfault
  split_ifs at hfault <;> simp_all [Fault.of]

namespace Program

/-- Let a binding without a full type be reached without a fault of inference before it. If the rules can type
its value after inference, with no unknown parts and without looking at the type of an entry value, then
inference gives it this type, and the rules do not miss a type for it. -/
theorem infer_resolves {p : Program} {n : ℕ} {f g : Function} (hf : p.functions[n]? = some f)
    (hg : p.infer.1.functions[n]? = some g) {π : Site} {d : Declaration} {v : Value}
    (hbind : π.command? f.body = some (.bind d v)) (hd : d.type.hasUnknown = true)
    (hclean : (Inference.block f.name (Inference.inputs p f) (π.before f.body)).faults = [])
    {e : Scoping.Env} (henv : π.env? (g.entryEnv p.infer.1.functions) g.body = some e) {t : Ty}
    (ht : v.typeOf e.scope = .ok t) (hknown : t.hasUnknown = false)
    (hentry : ∀ x ∈ v.typeNames, ∀ i ∈ f.inputs, x ≠ oldName i.name) :
    π.command? g.body = some (.bind { d with type := t } v) ∧
      ∀ fault ∈ Scoping.declareFaults e d.origin d.name t, fault.cause ≠ .unknownType d.name := by
  have hgf : g = (Inference.function p f).1 := by
    rw [Inference.functions_infer, List.getElem?_map, hf] at hg
    exact (Option.some.inj hg).symm
  subst hgf
  obtain ⟨Γ, e', hcommand, henv', hagree⟩ :=
    Inference.exists_agrees f.name π (Inference.agrees_entry p f) hbind hclean
  obtain rfl : e' = e := Option.mem_unique henv' henv
  have htype : v.typeOf Γ = .ok t := v.typeOf_of_serves hagree.toServes hentry ht
  have hfilled : Inference.bind Γ d v = { d with type := t } := by
    unfold Inference.bind
    rw [htype]
    simp [Declaration.refine, hd, hknown]
  refine ⟨?_, Scoping.cause_ne_unknownType hknown⟩
  rw [← hfilled]
  exact hcommand

end Program

/-- The value that `scan` binds: the iterator, a target of its pattern and an element of an input. -/
def scanned : Value :=
  .tuple [.var "i", .var "b", .place (.elem .array "a" (.var "k'old") none) none] none

/-- Takes a pair apart and goes through a range, with types left to inference. -/
def scan : Function where
  name := "scan"
  inputs := [⟨"a", .array .i32 3, false, none⟩, ⟨"k", .i32, false, none⟩,
    ⟨"p", .tuple [.bool, .i32], false, none⟩]
  output := .unit
  precondition := .lit true
  postcondition := .lit true
  result := .unit none
  body := [
    .bindTuple [⟨"b", .unknown, false, none⟩, ⟨"n", .unknown, false, none⟩] (.var "p") none,
    .forRange "i" (.int 0) (.var "n") (.lit true) [
      .cond (.branch (.value (.var "b")) [.bind ⟨"y", .unknown, false, none⟩ scanned]
        (.otherwise [])) none] none]
  origin := none

theorem Program.infer_resolves_scan :
    ∃ g e, (Program.infer ⟨[scan]⟩).1.functions[0]? = some g ∧
      (Site.next (.inside 0 (.inside 0 .here))).env?
        (g.entryEnv (Program.infer ⟨[scan]⟩).1.functions) g.body = some e ∧
      (Site.next (.inside 0 (.inside 0 .here))).command? g.body =
        some (.bind ⟨"y", .tuple [.i32, .bool, .i32], false, none⟩ scanned) ∧
      ∀ fault ∈ Scoping.declareFaults e none "y" (.tuple [.i32, .bool, .i32]),
        fault.cause ≠ .unknownType "y" := by
  refine ⟨_, _, rfl, rfl, ?_⟩
  refine Program.infer_resolves (p := ⟨[scan]⟩) (n := 0) (f := scan)
    (d := ⟨"y", .unknown, false, none⟩) rfl rfl rfl rfl rfl rfl (by cbv) rfl ?_
  decide +kernel

/-- Binds the entry value of an input, with the type left to inference. -/
def remember : Function where
  name := "remember"
  inputs := [⟨"x", .i32, true, none⟩]
  output := .i32
  precondition := .lit true
  postcondition := .equal (.value (.var resultName)) (.value (.var "x'old"))
  result := .var "y"
  body := [.bind ⟨"y", .unknown, false, none⟩ (.var "x'old"), .assign ⟨.name "x" none, .int 0, none⟩]
  origin := none

/-- A binding that the rules can type, with no fault of inference, and that stays without a type. -/
theorem Program.entry_value_unresolved :
    ∃ g e, (Program.infer ⟨[remember]⟩).1.functions[0]? = some g ∧
      (Program.infer ⟨[remember]⟩).2 = [] ∧
      Site.here.env? (g.entryEnv (Program.infer ⟨[remember]⟩).1.functions) g.body = some e ∧
      (Value.var "x'old").typeOf e.scope = .ok .i32 ∧
      Site.here.command? g.body = some (.bind ⟨"y", .unknown, false, none⟩ (.var "x'old")) ∧
      (Program.infer ⟨[remember]⟩).1.validate = [⟨"remember", none, .unknownType "y"⟩] := by
  refine ⟨_, _, rfl, rfl, rfl, by cbv, by cbv, by cbv⟩

end Verdict
