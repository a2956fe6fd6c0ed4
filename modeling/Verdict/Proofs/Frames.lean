import Verdict.Proofs.WellTyped
import Verdict.Lang.Frame

/-! # Frames follow the scoping rules

The frames through which a function is run know at least the variables of the environments of the
scoping rules, with the same types. The types of all their variables are known, and none of them has the
name of the result. -/

namespace Verdict

/-! ### Association lists -/

namespace NameMap

variable {α : Type}

theorem find_cons (x : String) (es : List (String × α)) (e : String × α) :
    find x (e :: es) = if e.1 = x then some e.2 else find x es := rfl

/-- Inserting entries with different names one by one. -/
theorem get?_foldl_insert (es : List (String × α)) (m : NameMap α) (x : String)
    (h : (es.map Prod.fst).Nodup) :
    (es.foldl (fun m e => m.insert e.1 e.2) m).get? x = (find x es).or (m.get? x) := by
  induction es generalizing m with
  | nil => rfl
  | cons e es ih =>
    rw [List.map_cons, List.nodup_cons] at h
    rw [List.foldl_cons, ih _ h.2, get?_insert, find_cons]
    split_ifs with hx
    · have hnone : find x es = none := by
        rw [find_eq_none_iff]
        intro e' he' hx'
        exact h.1 (List.mem_map.mpr ⟨e', he', hx'.trans hx.symm⟩)
      simp [hnone]
    · rfl

/-- Whether entries are listed in the order of their names. -/
def Sorted (m : NameMap α) : Prop := m.entries.Pairwise fun a b => a.1 < b.1

theorem sorted_insertEntry (name : String) (a : α) (es : List (String × α))
    (h : es.Pairwise fun a b => a.1 < b.1) :
    (insertEntry name a es).Pairwise fun a b => a.1 < b.1 := by
  induction es with
  | nil => simp [insertEntry]
  | cons e es ih =>
    rw [List.pairwise_cons] at h
    unfold insertEntry
    split_ifs with hlt heq
    · refine List.pairwise_cons.mpr ⟨fun e' he' => ?_, List.pairwise_cons.mpr h⟩
      rcases List.mem_cons.mp he' with rfl | he'
      · exact hlt
      · exact hlt.trans (h.1 e' he')
    · exact List.pairwise_cons.mpr ⟨fun e' he' => heq ▸ h.1 e' he', h.2⟩
    · refine List.pairwise_cons.mpr ⟨fun e' he' => ?_, ih h.2⟩
      rcases mem_insertEntry he' with rfl | he'
      · exact lt_of_le_of_ne (not_lt.mp hlt) heq
      · exact h.1 e' he'

theorem Sorted.insert {m : NameMap α} (h : m.Sorted) (name : String) (a : α) :
    (m.insert name a).Sorted :=
  sorted_insertEntry name a m.entries h

theorem Sorted.nodup {m : NameMap α} (h : m.Sorted) : (m.entries.map Prod.fst).Nodup :=
  (List.pairwise_map.mpr h).imp fun hlt => hlt.ne

end NameMap

/-! ### The types in a frame -/

variable {x : String} {d : Declaration} {ds : List Declaration}

namespace Frame

/-- The names and types of the variables of a frame. -/
def types (vars : List Var) : List (String × Ty) := vars.map fun v => (v.name, v.type)

theorem type?_eq (f : Frame) (x : String) :
    f.type? x = (NameMap.find x (types f.vars)).or (f.olds.get? x) := by
  unfold type? find? types
  induction f.vars with
  | nil => rfl
  | cons v vs ih =>
    rw [List.find?_cons, List.map_cons, NameMap.find_cons]
    by_cases hv : v.name = x
    · simp [hv]
    · have hbeq : (v.name == x) = false := by simpa using hv
      simpa [hbeq, hv] using ih

theorem type?_scopeOver {f : Frame} (hvars : ((types f.vars).map Prod.fst).Nodup)
    (holds : f.olds.Sorted) (more : NameMap Ty) (x : String) :
    (f.scopeOver more).type? x = (f.type? x).or (more.get? x) := by
  have hfold : ∀ m : NameMap Ty, f.vars.foldl (fun m v => m.insert v.name v.type) m =
      (types f.vars).foldl (fun m e => m.insert e.1 e.2) m := by
    intro m
    rw [types, List.foldl_map]
  simp only [scopeOver, Scope.type?, hfold]
  rw [NameMap.get?_foldl_insert _ _ _ hvars, NameMap.get?_foldl_insert _ _ _ holds.nodup, type?_eq,
    Option.or_assoc]
  rfl

theorem find_setVar (v : Var) (vs : List Var) (x : String) :
    NameMap.find x (types (setVar v vs)) =
      if v.name = x then some v.type else NameMap.find x (types vs) := by
  induction vs with
  | nil => rfl
  | cons w ws ih =>
    unfold setVar
    split_ifs with hw hx hx
    · simp [types, NameMap.find, hx]
    · have hwx : w.name ≠ x := hw ▸ hx
      simp [types, NameMap.find, hx, hwx]
    · simp only [types, List.map_cons, NameMap.find] at ih ⊢
      rw [ih, if_pos hx, if_neg]
      rintro rfl
      exact hw hx.symm
    · simp only [types, List.map_cons, NameMap.find] at ih ⊢
      rw [ih, if_neg hx]

theorem mem_names_setVar {v : Var} {vs : List Var} (h : x ∈ (types (setVar v vs)).map Prod.fst) :
    x = v.name ∨ x ∈ (types vs).map Prod.fst := by
  induction vs with
  | nil => simpa [setVar, types] using h
  | cons w ws ih =>
    unfold setVar at h
    split_ifs at h with hw
    · rcases List.mem_cons.mp h with h | h
      · exact .inl h
      · exact .inr (List.mem_cons_of_mem _ h)
    · rcases List.mem_cons.mp h with h | h
      · exact .inr (List.mem_cons.mpr (.inl h))
      · exact (ih h).imp_right (List.mem_cons_of_mem _)

theorem nodup_setVar (v : Var) (vs : List Var) (h : ((types vs).map Prod.fst).Nodup) :
    ((types (setVar v vs)).map Prod.fst).Nodup := by
  induction vs with
  | nil => simp [setVar, types]
  | cons w ws ih =>
    have h' : w.name ∉ (types ws).map Prod.fst ∧ ((types ws).map Prod.fst).Nodup := by
      simpa [types] using h
    unfold setVar
    split_ifs with hw
    · simpa [types, hw] using h
    · refine List.nodup_cons.mpr ⟨fun hmem => ?_, ih h'.2⟩
      rcases mem_names_setVar hmem with hv | hmem
      · exact hw hv
      · exact h'.1 hmem

/-- Giving a variable another value keeps all types. -/
theorem types_setVar_of_find {v w : Var} {vs : List Var}
    (h : vs.find? (fun u => u.name == x) = some v) (hname : w.name = v.name)
    (htype : w.type = v.type) : types (setVar w vs) = types vs := by
  induction vs with
  | nil => simp at h
  | cons u us ih =>
    rw [List.find?_cons] at h
    unfold setVar
    by_cases hu : u.name = x
    · have hbeq : (u.name == x) = true := by simpa using hu
      rw [hbeq, Option.some.injEq] at h
      subst h
      simp [types, hname, htype]
    · have hbeq : (u.name == x) = false := by simpa using hu
      rw [hbeq] at h
      have hv : v.name = x := by simpa using List.find?_some h
      rw [if_neg]
      · simpa [types] using ih h
      · rintro huw
        exact hu (huw.trans (hname.trans hv))

/-! ### Steps -/

variable {f f' : Frame} {v : Option Value}

theorem of_record {v : Value} (h : f.record v = .ok f') : f' = { f with met := f'.met } := by
  unfold record at h
  split_ifs at h
  · cases h
    rfl
  · obtain ⟨t, -, h⟩ := ok_of_bind h
    cases h
    rfl

theorem of_recordAll {ns : List Node} (h : f.recordAll ns = .ok f') :
    f' = { f with met := f'.met } := by
  induction ns generalizing f with
  | nil =>
    cases h
    rfl
  | cons n ns ih =>
    cases n with
    | value v =>
      obtain ⟨f1, hv, h⟩ := ok_of_bind h
      rw [ih h, of_record hv]
    | expr e | formula g | place p | command c => exact ih h

theorem of_declare (h : f.declare d v = .ok f') :
    d.type.hasUnknown = false ∧
      f' = { f with vars := setVar ⟨d.name, d.type, d.mutable, v⟩ f.vars } := by
  unfold declare at h
  split_ifs at h with hd
  cases h
  exact ⟨by simpa using hd, rfl⟩

theorem type?_of_declare (h : f.declare d v = .ok f') (x : String) :
    f'.type? x = if d.name = x then some d.type else f.type? x := by
  obtain ⟨-, rfl⟩ := of_declare h
  rw [type?_eq, type?_eq, find_setVar]
  split_ifs <;> rfl

theorem types_of_declare {vars : NameMap Ty} (h : f.declare d v = .ok f')
    (htypes : ∀ x t, vars.get? x = some t → f.type? x = some t) (x : String) (t : Ty)
    (hx : (vars.insert d.name d.type).get? x = some t) : f'.type? x = some t := by
  rw [type?_of_declare h]
  rw [NameMap.get?_insert] at hx
  split_ifs at hx ⊢
  · exact hx
  · exact htypes x t hx

/-- An assignment keeps the types of all variables. -/
theorem of_assign {a : Assignment} (h : f.assign a = .ok f') :
    f'.functions = f.functions ∧ types f'.vars = types f.vars ∧ f'.olds = f.olds := by
  unfold assign at h
  split at h
  · rw [of_recordAll h]
    exact ⟨rfl, rfl, rfl⟩
  · split at h
    · cases h
    · next v hv =>
      rw [of_recordAll h]
      exact ⟨rfl, types_setVar_of_find hv rfl rfl, rfl⟩

theorem of_assignAll {as : List Assignment} (h : as.foldlM assign f = .ok f') :
    f'.functions = f.functions ∧ types f'.vars = types f.vars ∧ f'.olds = f.olds := by
  induction as generalizing f with
  | nil =>
    cases h
    exact ⟨rfl, rfl, rfl⟩
  | cons a as ih =>
    obtain ⟨f1, ha, h⟩ := ok_of_bind h
    obtain ⟨h1, h2, h3⟩ := ih h
    obtain ⟨h1', h2', h3'⟩ := of_assign ha
    exact ⟨h1.trans h1', h2.trans h2', h3.trans h3'⟩

/-- Whether a frame knows the variables of an environment. -/
structure Covers (functions : List Function) (f : Frame) (e : Scoping.Env) : Prop where
  functions : f.functions = functions
  types : ∀ x t, e.scope.vars.get? x = some t → f.type? x = some t
  known : ∀ x t, f.type? x = some t → t.hasUnknown = false
  result : f.type? resultName = none
  wildcard : e.vars.get? "_" = none
  nodup : ((Frame.types f.vars).map Prod.fst).Nodup
  olds : f.olds.Sorted

namespace Covers

variable {functions : List Function} {e : Scoping.Env}

theorem scopeOver (h : f.Covers functions e) (more : NameMap Ty) {x : String} {t : Ty}
    (hx : f.type? x = some t) : (f.scopeOver more).type? x = some t := by
  rw [type?_scopeOver h.nodup h.olds, hx]
  rfl

theorem of_types_eq (h : f.Covers functions e) (hfun : f'.functions = f.functions)
    (htypes : Frame.types f'.vars = Frame.types f.vars) (holds : f'.olds = f.olds) :
    f'.Covers functions e := by
  have htype : ∀ x, f'.type? x = f.type? x := fun x => by rw [type?_eq, type?_eq, htypes, holds]
  refine ⟨hfun.trans h.functions, ?_, ?_, ?_, h.wildcard, htypes ▸ h.nodup, holds ▸ h.olds⟩
  · exact fun x t hx => (htype x).trans (h.types x t hx)
  · exact fun x t hx => h.known x t ((htype x).symm.trans hx)
  · exact (htype _).trans h.result

/-- A frame that covers an environment covers those before it. -/
theorem before {e' : Scoping.Env} (h : f.Covers functions e') (he : e.Extends e') :
    f.Covers functions e := by
  refine ⟨h.functions, fun x t hx => h.types x t (he.type? hx), h.known, h.result, ?_, h.nodup, h.olds⟩
  refine Option.eq_none_iff_forall_ne_some.mpr fun v hv => ?_
  have hwild := he "_" v hv
  rw [h.wildcard] at hwild
  cases hwild

theorem ne_of_isReserved (h : Scoping.isReserved x = false) : x ≠ resultName := by
  rintro rfl
  exact absurd h (by decide)

theorem declare (h : f.Covers functions e) {o : Origin}
    (hd : Scoping.declareFaults e o d.name d.type = []) (hf : f.declare d v = .ok f') :
    f'.Covers functions (Scoping.declare e d.name d.type d.mutable) := by
  have htype := type?_of_declare hf
  obtain ⟨hknown, rfl⟩ := of_declare hf
  have hresult : d.name ≠ resultName := by
    by_cases hw : d.name = "_"
    · rw [hw]
      decide
    · exact ne_of_isReserved (Scoping.of_declareFaults hd hw).1
  refine ⟨h.functions, fun x t hx => ?_, fun x t hx => ?_, ?_, ?_, nodup_setVar _ _ h.nodup, h.olds⟩
  · rw [htype]
    unfold Scoping.declare at hx
    split_ifs at hx with hw
    · rw [if_neg]
      · exact h.types x t hx
      · rintro rfl
        rw [Scoping.Env.type?_scope, hw, h.wildcard] at hx
        cases hx
    · rw [Scoping.Env.type?_scope, Scoping.Env.get?_add] at hx
      split_ifs at hx ⊢ with hdx
      · exact hx
      · exact h.types x t ((Scoping.Env.type?_scope e x).trans hx)
  · rw [htype] at hx
    split_ifs at hx with hdx
    · cases hx
      exact hknown
    · exact h.known x t hx
  · rw [htype, if_neg hresult]
    exact h.result
  · unfold Scoping.declare
    split_ifs with hw
    · exact h.wildcard
    · rw [Scoping.Env.get?_add, if_neg hw]
      exact h.wildcard

theorem declareAll {o : Origin} {v : Value} {i : ℕ} (h : f.Covers functions e)
    (hd : (Scoping.declareAll o e ds).2 = []) (hf : f.declareAll v i ds = .ok f') :
    f'.Covers functions (Scoping.declareAll o e ds).1 := by
  induction ds generalizing f e i with
  | nil =>
    cases hf
    exact h
  | cons d ds ih =>
    simp only [Scoping.declareAll, List.append_eq_nil_iff] at hd ⊢
    unfold Frame.declareAll at hf
    split_ifs at hf with hw
    · have he : Scoping.declare e d.name d.type d.mutable = e := by
        unfold Scoping.declare
        rw [if_pos hw]
      rw [he] at hd ⊢
      exact ih h hd.2 hf
    · obtain ⟨f1, hf1, hf⟩ := ok_of_bind hf
      exact ih (h.declare hd.1 hf1) hd.2 hf

/-- The frame after a command knows the variables of the environment after it. -/
theorem step {c : Command} (h : f.Covers functions e) (hc : (Scoping.command e c).2 = [])
    (hf : f.step c = .ok f') : f'.Covers functions (Scoping.command e c).1 := by
  cases c with
  | declare d => exact h.declare hc hf
  | bind d v =>
    simp only [Scoping.command, List.append_eq_nil_iff] at hc ⊢
    obtain ⟨f1, hf1, hf⟩ := ok_of_bind hf
    rw [of_recordAll hf]
    exact (h.declare hc.2 hf1).of_types_eq rfl rfl rfl
  | bindTuple ds v o =>
    simp only [Scoping.command, List.append_eq_nil_iff] at hc ⊢
    obtain ⟨f1, hf1, hf⟩ := ok_of_bind hf
    rw [of_recordAll hf]
    exact (h.declareAll hc.2 hf1).of_types_eq rfl rfl rfl
  | assign a =>
    obtain ⟨h1, h2, h3⟩ := of_assign hf
    exact h.of_types_eq h1 h2 h3
  | assignAll as o =>
    obtain ⟨h1, h2, h3⟩ := of_assignAll hf
    exact h.of_types_eq h1 h2 h3
  | assume g o | assert g o | invariant g o =>
    rw [of_recordAll hf]
    exact h.of_types_eq rfl rfl rfl
  | cond bs o | forRange i lo hi inv body o | whileLoop c inv variant body o | noop o =>
    cases hf
    exact h

end Covers

end Frame

/-! ### The frame on entry -/

theorem quote_mem_oldName (x : String) : '\'' ∈ (oldName x).toList := by
  simp [oldName]

theorem not_quote_mem_of_isReserved (h : Scoping.isReserved x = false) : '\'' ∉ x.toList := by
  simp only [Scoping.isReserved, Bool.or_eq_false_iff] at h
  simpa using h.2

/-- Adds the types of the values on entry to a map. -/
def addOlds (ds : List Declaration) (m : NameMap Ty) : NameMap Ty :=
  ds.foldl (fun m d => m.insert (oldName d.name) d.type) m

theorem quote_mem_of_addOlds {m : NameMap Ty} (hm : ∀ x t, m.get? x = some t → '\'' ∈ x.toList)
    {t : Ty} (h : (addOlds ds m).get? x = some t) : '\'' ∈ x.toList := by
  induction ds generalizing m with
  | nil => exact hm x t h
  | cons d ds ih =>
    refine ih (m := m.insert (oldName d.name) d.type) (fun y u hy => ?_) h
    rw [NameMap.get?_insert] at hy
    split_ifs at hy with hd
    · exact hd ▸ quote_mem_oldName d.name
    · exact hm y u hy

/-- The environment of the body knows the values on entry, and otherwise the inputs. -/
theorem type?_foldl_add (ds : List Declaration) (x : String) (base : Option Ty) (e : Scoping.Env)
    (m : NameMap Ty) (h : e.scope.vars.get? x = (m.get? x).or base) :
    (ds.foldl (fun (e : Scoping.Env) d => e.add (oldName d.name) d.type false) e).scope.vars.get? x =
      ((addOlds ds m).get? x).or base := by
  induction ds generalizing e m with
  | nil => exact h
  | cons d ds ih =>
    refine ih _ (m.insert (oldName d.name) d.type) ?_
    rw [Scoping.Env.type?_scope, Scoping.Env.get?_add, NameMap.get?_insert]
    split_ifs
    · rfl
    · rw [← h, Scoping.Env.type?_scope]

/-- Whether a frame holds the inputs of an environment, and values on entry besides them. -/
structure Frame.HoldsInputs (functions : List Function) (f : Frame) (e : Scoping.Env) : Prop where
  covers : f.Covers functions e
  inputs : ∀ x t, e.scope.vars.get? x = some t → NameMap.find x (types f.vars) = some t
  names : ∀ x t, NameMap.find x (types f.vars) = some t → '\'' ∉ x.toList

namespace Frame.HoldsInputs

variable {functions : List Function} {e : Scoping.Env} {f f' : Frame}

theorem declare (h : f.HoldsInputs functions e)
    (hd : Scoping.declareFaults e d.origin d.name d.type = []) (hf : f.declare d none = .ok f') :
    f'.HoldsInputs functions (Scoping.declare e d.name d.type d.mutable) := by
  refine ⟨h.covers.declare hd hf, ?_, ?_⟩
  · obtain ⟨-, rfl⟩ := of_declare hf
    intro x t hx
    rw [find_setVar]
    unfold Scoping.declare at hx
    split_ifs at hx with hw
    · rw [if_neg]
      · exact h.inputs x t hx
      · rintro rfl
        rw [Scoping.Env.type?_scope, hw, h.covers.wildcard] at hx
        cases hx
    · rw [Scoping.Env.type?_scope, Scoping.Env.get?_add] at hx
      split_ifs at hx ⊢ with hdx
      · exact hx
      · exact h.inputs x t ((Scoping.Env.type?_scope e x).trans hx)
  · obtain ⟨-, rfl⟩ := of_declare hf
    intro x t hx
    rw [find_setVar] at hx
    split_ifs at hx with hdx
    · subst hdx
      by_cases hw : d.name = "_"
      · simp [hw]
      · exact not_quote_mem_of_isReserved (Scoping.of_declareFaults hd hw).1
    · exact h.names x t hx

/-- A value on entry is known besides the inputs. -/
theorem insertOld (h : f.HoldsInputs functions e) {t : Ty} (ht : t.hasUnknown = false) :
    HoldsInputs functions { f with olds := f.olds.insert (oldName x) t } e := by
  have htype : ∀ y, ({ f with olds := f.olds.insert (oldName x) t } : Frame).type? y =
      (NameMap.find y (types f.vars)).or (if oldName x = y then some t else f.olds.get? y) := by
    intro y
    rw [type?_eq, NameMap.get?_insert]
  refine ⟨⟨h.covers.functions, fun y u hy => ?_, fun y u hy => ?_, ?_, h.covers.wildcard,
    h.covers.nodup, h.covers.olds.insert _ _⟩, h.inputs, h.names⟩
  · rw [htype, h.inputs y u hy]
    rfl
  · rw [htype] at hy
    cases hfind : NameMap.find y (types f.vars) with
    | some w =>
      rw [hfind] at hy
      exact h.covers.known y u (by rw [type?_eq, hfind]; exact hy)
    | none =>
      rw [hfind, Option.none_or] at hy
      split_ifs at hy with hxy
      · cases hy
        exact ht
      · exact h.covers.known y u (by rw [type?_eq, hfind]; exact hy)
  · have hne : oldName x ≠ resultName := by
      intro hx
      have hq := quote_mem_oldName x
      rw [hx] at hq
      revert hq
      decide
    have hresult := h.covers.result
    rw [type?_eq] at hresult
    rw [htype, if_neg hne]
    exact hresult

theorem declareInputs (h : f.HoldsInputs functions e) (hd : Scoping.Declares e ds)
    (hf : f.declareInputs ds = .ok f') :
    f'.HoldsInputs functions
        (ds.foldl (fun e d => Scoping.declare e d.name d.type d.mutable) e) ∧
      f'.olds = addOlds ds f.olds := by
  induction ds generalizing f e with
  | nil =>
    cases hf
    exact ⟨h, rfl⟩
  | cons d ds ih =>
    obtain ⟨f1, hf1, hf⟩ := ok_of_bind hf
    have hknown := (of_declare hf1).1
    have holds : f1.olds = f.olds := by rw [(of_declare hf1).2]
    obtain ⟨h1, h2⟩ := ih ((h.declare hd.1 hf1).insertOld hknown) hd.2 hf
    exact ⟨h1, by rw [h2, holds]; rfl⟩

end Frame.HoldsInputs

/-- The frame on entry knows the inputs and their values on entry. -/
theorem Frame.covers_entry {functions : List Function} {f : Function} {frame : Frame}
    (hd : Scoping.Declares ⟨.empty, functions⟩ f.inputs)
    (hf : Frame.entry functions f = .ok frame) :
    frame.Covers functions (f.inputEnv functions) ∧
      frame.Covers functions (f.entryEnv functions) := by
  obtain ⟨f1, hf1, hf⟩ := ok_of_bind hf
  have hempty : HoldsInputs functions ⟨functions, [], [], [], .empty⟩ ⟨.empty, functions⟩ := by
    refine ⟨⟨rfl, ?_, ?_, rfl, rfl, List.nodup_nil, List.Pairwise.nil⟩, ?_, ?_⟩
    all_goals exact fun x t hx => nomatch hx
  obtain ⟨h, holds⟩ := hempty.declareInputs hd hf1
  rw [of_recordAll hf]
  refine ⟨h.covers.of_types_eq rfl rfl rfl, ?_⟩
  have hentry : ∀ x, (f.entryEnv functions).scope.vars.get? x =
      (f1.olds.get? x).or ((f.inputEnv functions).scope.vars.get? x) := by
    intro x
    rw [holds]
    exact type?_foldl_add f.inputs x _ _ .empty rfl
  refine Covers.of_types_eq (f := f1) ⟨h.covers.functions, fun x t hx => ?_, h.covers.known,
    h.covers.result, ?_, h.covers.nodup, h.covers.olds⟩ rfl rfl rfl
  · rw [hentry] at hx
    rw [type?_eq]
    cases hold : f1.olds.get? x with
    | none =>
      rw [hold, Option.none_or] at hx
      rw [h.inputs x t hx]
      rfl
    | some u =>
      -- A value on entry has a quote in its name, and an input has not.
      have hq : '\'' ∈ x.toList :=
        quote_mem_of_addOlds (m := .empty) (fun y v hy => nomatch hy) (holds ▸ hold)
      cases hfind : NameMap.find x (types f1.vars) with
      | some w => exact absurd hq (h.names x w hfind)
      | none =>
        rw [hold] at hx
        exact hx
  · have hw := hentry "_"
    rw [Scoping.Env.type?_scope, Scoping.Env.type?_scope] at hw
    have hold : f1.olds.get? "_" = none := by
      rw [Option.eq_none_iff_forall_ne_some]
      intro t ht
      have hq := quote_mem_of_addOlds (m := .empty) (fun y v hy => nomatch hy) (holds ▸ ht)
      revert hq
      decide
    have hin : (f.inputEnv functions).vars.get? "_" = none := h.covers.wildcard
    rw [hold, hin] at hw
    simpa using hw

end Verdict
