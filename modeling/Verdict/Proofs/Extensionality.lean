import Verdict.Proofs.Recording

/-! # When compound values are encoded alike

What an encoding gives does not depend on what has been declared before (`Steady.unique`). So two calls
that differ in one argument are encoded alike in a model if that argument is.

Arrays and tuples are total maps in a model. What such a map holds at positions that the value does not
have matters: it is what a literal holds at its first position (`filled_value`, `filled_tuple`), and
whatever a constant or a function of the model holds. Two values that agree at all their positions are
encoded alike if they also agree elsewhere, and literals do. -/

namespace Verdict

variable {n : ℕ} {r : Encoded} {t : Ty} {v : Value}

namespace Encoding

variable {α β : Type} {a b : α} {env : Env} {d d' : Declarations} {m : EncodeM α}

/-! ### Results do not depend on declarations -/

/-- Whether an encoding gives a result, whatever has been declared. -/
def Always (m : EncodeM α) (a : α) : Prop := ∀ d, ∃ d', Ran m d a d'

/-- Whether a result that an encoding can give does not depend on what has been declared. -/
def Steady (m : EncodeM α) : Prop := ∀ a, Yields m a → Always m a

theorem Always.yields (h : Always m a) : Yields m a := ⟨default, h default⟩

theorem Always.unique (ha : Always m a) (hb : Yields m b) : a = b := by
  obtain ⟨d, d₁, hb⟩ := hb
  obtain ⟨d₂, ha⟩ := ha d
  exact Except.ok.inj (congrArg Prod.fst (ha.symm.trans hb))

theorem Steady.unique (h : Steady m) (ha : Yields m a) (hb : Yields m b) :
    a = b := (h a ha).unique hb

theorem Always.bind {f : α → EncodeM β} {b : β} (hm : Always m a) (hf : Always (f a) b) :
    Always (m >>= f) b := by
  intro d
  obtain ⟨d₁, hm⟩ := hm d
  obtain ⟨d₂, hf⟩ := hf d₁
  exact ⟨d₂, ran_bind.mpr ⟨a, d₁, hm, hf⟩⟩

theorem always_pure (a : α) : Always (pure a) a := fun d => ⟨d, rfl⟩

theorem always_orFail {r : Except Cause α} (h : r = .ok a) : Always (orFail r) a :=
  fun d => ⟨d, ran_orFail.mpr ⟨h, rfl⟩⟩

theorem always_lift {r : Except Fault α} (h : r = .ok a) : Always (lift r) a :=
  fun d => ⟨d, ran_lift.mpr ⟨h, rfl⟩⟩

theorem always_lookup {x : String} (h : env.scope.type? x = some t) (o : Origin) :
    Always (lookup env x o) t := fun d => ⟨d, ran_lookup.mpr ⟨h, rfl⟩⟩

variable {s : SmtSort}

theorem always_requireSort (v : Value) (h : r.sort = s) :
    Always (requireSort v s r) r := fun d => ⟨d, ran_requireSort.mpr ⟨h, rfl, rfl⟩⟩

theorem always_requireInt (e : Expr) (h : r.sort = .int) : Always (requireInt e r) r :=
  fun d => ⟨d, ran_requireInt.mpr ⟨fun _ _ => h, rfl, rfl⟩⟩

theorem always_tupleType {ts : List Ty} (ht : v.typeOf env.scope = .ok t)
    (hts : t.underlying = .tuple ts) : Always (tupleType env v) ts :=
  fun d => ⟨d, ran_tupleType.mpr ⟨⟨t, ht, hts⟩, rfl⟩⟩

theorem always_arrayElement {array : Term} {e : Ty} {i : Value} {index : Encoded}
    (h : e.sortOf = .ok s) : Always (arrayElement array e n i index)
      ⟨elementChecks i n index, .select array index.term, s⟩ :=
  fun d => ⟨d, ran_arrayElement.mpr ⟨s, h, rfl, rfl⟩⟩

theorem always_tupleElement {o : Origin} {t : EncodedTuple} {i : Value} {e : Ty}
    (hn : i.constantIndex? = some n) (he : t.elements[n]? = some e) (hs : e.sortOf = .ok s) :
    Always (tupleElement o t i) ⟨t.checks, .select (part t.parts s) (.int (Int64.ofNat n)), s⟩ :=
  fun d => ⟨d, ran_tupleElement.mpr ⟨n, e, s, hn, he, hs, rfl, rfl⟩⟩

theorem always_declareConst (env : Env) (x : String) (s : SmtSort) :
    Always (declareConst env x s) () := by
  unfold declareConst
  split <;> exact fun _ => ⟨_, rfl⟩

theorem always_declareFun (f : String) (sig : FunctionSort) : Always (declareFun f sig) () :=
  fun _ => ⟨_, rfl⟩

theorem always_namedTuple {x : String} : ∀ {ts : List Ty} {parts parts' : NameMap Term}
    {d d' : Declarations}, Ran (namedTuple env x parts ts) d parts' d' →
      Always (namedTuple env x parts ts) parts'
  | [], parts, parts', d, d', h => (ran_pure.mp h).1 ▸ always_pure _
  | t :: ts, parts, parts', d, d', h => by
    simp only [namedTuple, ran_bind, ran_orFail] at h ⊢
    obtain ⟨s, _, ⟨hs, -⟩, _, d₁, -, h⟩ := h
    exact (always_orFail hs).bind ((always_declareConst _ _ _).bind (always_namedTuple h))

theorem always_callParts {f : String} {as : EncodedArgs} : ∀ {ss : List SmtSort}
    {parts parts' : NameMap Term} {d d' : Declarations}, Ran (callParts f as parts ss) d parts' d' →
      Always (callParts f as parts ss) parts'
  | [], parts, parts', d, d', h => (ran_pure.mp h).1 ▸ always_pure _
  | s :: ss, parts, parts', d, d', h => by
    simp only [callParts, ran_bind] at h ⊢
    obtain ⟨_, d₁, -, h⟩ := h
    exact (always_declareFun _ _).bind (always_callParts h)

mutual

theorem always_place {p env d d' r} (h : RunPlace env p d r d') : Always (place env p) r := by
  cases h with
  | name ht hs =>
    refine (always_lookup ht _).bind ?_
    rw [hs]
    exact (always_declareConst _ _ _).bind (always_pure _)
  | array ht he hs _ hi hint =>
    refine (always_lookup ht _).bind ?_
    rw [he]
    exact (always_orFail (Ty.sortOf_array.mpr ⟨_, rfl, hs⟩)).bind ((always_declareConst _ _ _).bind
      ((always_value hi).bind ((always_requireSort _ hint).bind (always_arrayElement hs))))
  | tuple ht hts hparts hn he hs =>
    refine (always_lookup ht _).bind ?_
    rw [hts]
    exact (always_namedTuple hparts).bind (always_tupleElement hn he hs)

theorem always_value {v env d d' r} (h : RunValue env v d r d') : Always (value env v) r := by
  cases h with
  | expr he hint =>
    exact (always_expr he).bind (always_requireInt _ hint)
  | formula hf =>
    exact always_formula hf
  | place hp =>
    exact always_place hp
  | array hv hvs =>
    exact (always_value hv).bind (always_elements hvs _)
  | call hg hs has =>
    simp only [value, hg, hs]
    exact (always_args has).bind ((always_declareFun _ _).bind (always_pure _))
  | ref hv | deref hv =>
    simp only [value]
    exact always_value hv
  | ite hc hv hw hsort =>
    refine (always_formula hc).bind ((always_value hv).bind ((always_value hw).bind ?_))
    rw [if_pos hsort]
    exact always_pure _
  | element hb hn he hs =>
    exact (always_tuple hb).bind (always_tupleElement hn he hs)
  | select ht he hb hi hint hs =>
    refine (always_lift ht).bind ?_
    rw [he]
    exact (always_value hb).bind ((always_value hi).bind ((always_requireSort _ hint).bind
      ((always_arrayElement hs).bind (always_pure _))))
  | store hb hi hint he =>
    exact (always_value hb).bind ((always_value hi).bind ((always_requireSort _ hint).bind
      ((always_value he).bind (always_pure _))))

theorem always_elements {vs env array r s i d d'} (h : RunElements env array s i vs d r d')
    (o : Origin) : Always (elements env o array s i vs) r := by
  cases h with
  | nil =>
    exact always_pure _
  | cons hv hsort hvs =>
    refine (always_value hv).bind ?_
    rw [if_pos hsort]
    exact always_elements hvs o

theorem always_args {vs env d d' as} (h : RunArgs env vs d as d') : Always (args env vs) as := by
  cases h with
  | nil =>
    exact always_pure _
  | tuple ht hts hv hvs =>
    refine (always_lift ht).bind ?_
    rw [hts]
    exact (always_tuple hv).bind ((always_args hvs).bind (always_pure _))
  | value ht hnot hv hvs =>
    refine (always_lift ht).bind ?_
    split
    · next ts hts => exact absurd hts (hnot ts)
    · exact (always_value hv).bind ((always_args hvs).bind (always_pure _))

theorem always_tuple {v env d d' r} (h : RunTuple env v d r d') : Always (tuple env v) r := by
  cases h with
  | name ht hts hparts =>
    refine (always_tupleType (t := _) ?_ hts).bind ((always_namedTuple hparts).bind (always_pure _))
    simp only [Value.typeOf, Place.typeOf, ht]
  | literal ht hts hvs =>
    exact (always_tupleType ht hts).bind ((always_literal hvs).bind (always_pure _))
  | ref ht hts hv | deref ht hts hv =>
    exact (always_tupleType ht hts).bind (always_tuple hv)
  | ite ht hts hc hv hw =>
    exact (always_tupleType ht hts).bind ((always_formula hc).bind ((always_tuple hv).bind
      ((always_tuple hw).bind (always_pure _))))
  | store ht hts hb hn hlt he =>
    refine (always_tupleType ht hts).bind ((always_tuple hb).bind ?_)
    rw [Option.filter_eq_some_iff.mpr ⟨hn, decide_eq_true hlt⟩]
    exact (always_value he).bind (always_pure _)
  | call hg hts has hparts =>
    refine (always_tupleType (t := _) ?_ hts).bind ((always_args has).bind
      ((always_callParts hparts).bind (always_pure _)))
    simp only [Value.typeOf, hg]

theorem always_literal {vs env cs parts i d d' r} (h : RunLiteral env cs parts i vs d r d') :
    Always (literal env cs parts i vs) r := by
  cases h with
  | nil =>
    exact always_pure _
  | cons hv hvs =>
    exact (always_value hv).bind (always_literal hvs)

theorem always_expr {e env d d' r} (h : RunExpr env e d r d') : Always (expr env e) r := by
  cases h with
  | num =>
    exact always_pure _
  | value hv =>
    exact always_value hv
  | op ha hia hb hib =>
    exact (always_expr ha).bind ((always_requireInt _ hia).bind
      ((always_expr hb).bind ((always_requireInt _ hib).bind (always_pure _))))

theorem always_formula {f env d d' r} (h : RunFormula env f d r d') : Always (formula env f) r := by
  cases h with
  | lit =>
    exact always_pure _
  | and hf hg | or hf hg =>
    exact (always_formula hf).bind ((always_formula hg).bind (always_pure _))
  | not hf =>
    exact (always_formula hf).bind (always_pure _)
  | value hv hsort =>
    exact (always_value hv).bind (always_requireSort _ hsort)
  | equal ha hb hsort =>
    refine (always_expr ha).bind ((always_expr hb).bind ?_)
    rw [if_pos hsort]
    exact always_pure _
  | compare ha hb hsort ht =>
    refine (always_expr ha).bind ((always_expr hb).bind ?_)
    rw [if_pos hsort, ht]
    exact always_pure _
  | quant hs hf =>
    exact (always_orFail hs).bind ((always_formula hf).bind (always_pure _))

end

theorem steady_value (v : Value) (env : Env) : Steady (value env v) := by
  rintro r ⟨d, d', h⟩
  exact always_value (runs_value h)

theorem steady_args (vs : List Value) (env : Env) : Steady (args env vs) := by
  rintro as ⟨d, d', h⟩
  exact always_args (runs_args h)

theorem steady_tuple (v : Value) (env : Env) : Steady (tuple env v) := by
  rintro r ⟨d, d', h⟩
  exact always_tuple (runs_tuple h)

end Encoding

/-! ### What is held elsewhere -/

/-- Whether a value is a literal array or tuple, or a choice between such. -/
def Value.isFilled : Value → Bool
  | .array _ _ | .tuple _ _ => true
  | .ref v _ _ | .deref v _ => v.isFilled
  | .ite _ v w _ => v.isFilled && w.isFilled
  | _ => false

/-- The position of the first element of a sort. -/
def firstOf (ts : List Ty) (s : SmtSort) : ℕ := ts.findIdx fun t => t.sortOf.toOption == some s

/-- Whether a tuple has an element of a sort at a position. -/
def HasSortAt (ts : List Ty) (s : SmtSort) (j : ℤ) : Prop :=
  ∃ (k : ℕ) (t : Ty), ts[k]? = some t ∧ t.sortOf = .ok s ∧ j = k

variable {s : SmtSort} {ts : List Ty}

theorem Ty.toOption_sortOf : (t.sortOf.toOption == some s) = true ↔ t.sortOf = .ok s :=
  beq_iff_eq.trans toOption_eq_some

theorem hasSortAt_firstOf (h : ∃ t ∈ ts, t.sortOf = .ok s) : HasSortAt ts s (firstOf ts s) := by
  have hlt : firstOf ts s < ts.length := by
    obtain ⟨t, ht, hs⟩ := h
    exact List.findIdx_lt_length_of_exists ⟨t, ht, Ty.toOption_sortOf.mpr hs⟩
  refine ⟨firstOf ts s, ts.get ⟨_, hlt⟩, by simp, ?_, rfl⟩
  exact Ty.toOption_sortOf.mp (List.findIdx_getElem (w := hlt))

theorem firstOf_append {us : List Ty} (h : ∃ t ∈ ts, t.sortOf = .ok s) :
    firstOf (ts ++ us) s = firstOf ts s := by
  obtain ⟨t, ht, hs⟩ := h
  have hlt : firstOf ts s < ts.length :=
    List.findIdx_lt_length_of_exists ⟨t, ht, Ty.toOption_sortOf.mpr hs⟩
  unfold firstOf at hlt ⊢
  rw [List.findIdx_append, if_pos hlt]

theorem hasSortAt_append {us : List Ty} {j : ℤ} (h : HasSortAt ts s j) : HasSortAt (ts ++ us) s j := by
  obtain ⟨k, t, ht, hs, hj⟩ := h
  exact ⟨k, t, by rw [List.getElem?_append_left (List.getElem?_eq_some_iff.mp ht).1, ht], hs, hj⟩

namespace Encoding

variable {M : SmtModel} {Γ : Scope} {env : Env}

/-- Further elements of a literal array are stored at its positions. -/
theorem filled_elements {f : ℤ → Datum} {vs array r s i d d'}
    (h : RunElements env array s i vs d r d') (hi : 0 < i) (hlen : i + vs.length ≤ 2 ^ 63)
    (hf : array.term.eval M = .array f) (hout : ∀ j : ℤ, ¬ (0 ≤ j ∧ j < i) → f j = f 0) :
    ∃ g, r.term.eval M = .array g ∧
      ∀ j : ℤ, ¬ (0 ≤ j ∧ j < (i + vs.length : ℕ)) → g j = g 0 :=
  match h, hlen with
  | .nil, hlen => ⟨f, hf, hout⟩
  | @RunElements.cons _ _ _ _ _ _ r' _ _ _ _ hv _ hvs, hlen => by
    simp only [List.length_cons] at hlen
    have heval : (Term.store array.term (.int (Int64.ofNat i)) r'.term).eval M =
        .array (Function.update f i (r'.term.eval M)) := by
      rw [Term.eval_store, hf]
      simp only [Term.eval, Datum.toInt, toInt_ofNat (show i < 2 ^ 63 by omega), Datum.put]
    have hnext : ∀ j : ℤ, ¬ (0 ≤ j ∧ j < (i + 1 : ℕ)) →
        Function.update f i (r'.term.eval M) j = Function.update f i (r'.term.eval M) 0 := by
      intro j hj
      rw [Function.update_of_ne (by omega), Function.update_of_ne (by omega)]
      exact hout j (by omega)
    obtain ⟨g, hg, hout'⟩ := filled_elements hvs (by omega) (by omega) heval hnext
    refine ⟨g, hg, fun j hj => hout' j ?_⟩
    simp only [List.length_cons] at hj
    omega

/-- A literal array holds its first element elsewhere. -/
theorem filled_value : ∀ (v : Value) {r : Encoded} {u : Ty} {n : ℕ} {d d' : Declarations},
    RunValue env v d r d' → v.isFilled = true → v.Typed .queries Γ (.array u n) →
      0 < n ∧ ∃ f, r.term.eval M = .array f ∧ ∀ j : ℤ, ¬ (0 ≤ j ∧ j < n) → f j = f 0
  | .array vs o, r, u, n, d, d', h, _, ht => by
    cases h with
    | @array _ _ vs _ _ _ _ _ _ hv hvs =>
      obtain ⟨u', heq, ⟨-, hlen⟩, -⟩ := ht
      obtain ⟨rfl, rfl⟩ := Ty.array.inj heq
      have hlen' : 1 + vs.length ≤ 2 ^ 63 := by
        simpa [Bounds.queries, add_comm] using hlen
      obtain ⟨g, hg, hout⟩ := filled_elements (M := M) hvs Nat.one_pos hlen' (by rw [Term.eval])
        fun _ _ => rfl
      refine ⟨by simp, g, hg, ?_⟩
      simpa only [List.length_cons, add_comm] using hout
  | .ref v m o, r, u, n, d, d', .ref hv, hfill, ht
  | .deref v o, r, u, n, d, d', .deref hv, hfill, ht => filled_value v hv hfill ht
  | .ite c v w o, r, u, n, d, d', h, hfill, ht => by
    simp only [Value.isFilled, Bool.and_eq_true] at hfill
    cases h with
    | ite _ hv hw =>
      obtain ⟨hn, f, hf, hfout⟩ := filled_value v hv hfill.1 ht.2.1
      obtain ⟨-, g, hg, hgout⟩ := filled_value w hw hfill.2 ht.2.2
      refine ⟨hn, ?_⟩
      rw [Term.eval_ite, hf, hg]
      split_ifs
      · exact ⟨f, rfl, hfout⟩
      · exact ⟨g, rfl, hgout⟩
  | .tuple vs o, r, u, n, d, d', h, _, _ => by cases h

/-- Whether the parts of a tuple hold the first element of their sort elsewhere. -/
structure FilledParts (M : SmtModel) (ts : List Ty) (parts : NameMap Term) : Prop where
  held : ∀ s, (∃ t ∈ ts, t.sortOf = .ok s) → ∃ p f, parts.get? s.tag = some p ∧ p.eval M = .array f ∧
    ∀ j, ¬ HasSortAt ts s j → f j = f (firstOf ts s)
  absent : ∀ s, (∀ t ∈ ts, t.sortOf ≠ .ok s) → parts.get? s.tag = none

variable {ts : List Ty}

/-- One more element of a literal tuple is stored at its position. -/
theorem FilledParts.literalPart {parts : NameMap Term} (h : FilledParts M ts parts)
    (hsort : t.sortOf = .ok r.sort) (hlen : ts.length < 2 ^ 63) :
    FilledParts M (ts ++ [t]) (literalPart parts ts.length r) := by
  have hother : ∀ s, r.sort ≠ s →
      (Encoding.literalPart parts ts.length r).get? s.tag = parts.get? s.tag ∧ t.sortOf ≠ .ok s := by
    intro s hs
    refine ⟨?_, fun ht => hs (ok_unique hsort ht)⟩
    rw [Encoding.literalPart, NameMap.get?_insert, if_neg fun htag => hs (tag_injective htag)]
  refine ⟨fun s hex => ?_, fun s hnot => ?_⟩
  · by_cases hs : r.sort = s
    · subst hs
      rw [Encoding.literalPart, NameMap.get?_insert, if_pos rfl]
      by_cases hex' : ∃ u ∈ ts, u.sortOf = .ok r.sort
      · obtain ⟨p, f, hp, hf, hout⟩ := h.held r.sort hex'
        refine ⟨_, Function.update f ts.length (r.term.eval M), rfl, ?_, fun j hj => ?_⟩
        · rw [hp, Term.eval_store, hf]
          simp only [Term.eval, Datum.toInt, toInt_ofNat hlen, Datum.put]
        · have hne : j ≠ ts.length := fun hj' => hj ⟨ts.length, t, by simp, hsort, hj'⟩
          have hfirst : (firstOf ts r.sort : ℤ) ≠ ts.length := by
            obtain ⟨k, u, hu, -, hk⟩ := hasSortAt_firstOf hex'
            have := (List.getElem?_eq_some_iff.mp hu).1
            omega
          rw [firstOf_append hex', Function.update_of_ne hne, Function.update_of_ne hfirst]
          exact hout j fun hj' => hj (hasSortAt_append hj')
      · rw [h.absent r.sort fun u hu hus => hex' ⟨u, hu, hus⟩]
        exact ⟨_, fun _ => r.term.eval M, rfl, by rw [Term.eval], fun _ _ => rfl⟩
    · obtain ⟨hget, hne⟩ := hother s hs
      have hex' : ∃ u ∈ ts, u.sortOf = .ok s := by
        obtain ⟨u, hu, hus⟩ := hex
        rcases List.mem_append.mp hu with hu | hu
        · exact ⟨u, hu, hus⟩
        · exact absurd (List.mem_singleton.mp hu ▸ hus) hne
      obtain ⟨p, f, hp, hf, hout⟩ := h.held s hex'
      refine ⟨p, f, hget.trans hp, hf, fun j hj => ?_⟩
      rw [firstOf_append hex']
      exact hout j fun hj' => hj (hasSortAt_append hj')
  · rw [(hother s fun hs => hnot t (by simp) (hs ▸ hsort)).1]
    exact h.absent s fun u hu => hnot u (by simp [hu])

theorem filled_literal {vs : List Value} (us : List Ty) {ts : List Ty} {cs : List Check}
    {parts : NameMap Term} {i : ℕ} {r : List Check × NameMap Term} {d d' : Declarations}
    (h : RunLiteral env cs parts i vs d r d') (hi : i = us.length)
    (ht : Value.AllTyped .queries Γ vs ts) (hΓ : env.Knows Γ) (hlen : us.length + vs.length ≤ 2 ^ 63)
    (hparts : FilledParts M us parts) : FilledParts M (us ++ ts) r.2 :=
  match h, ht, hlen with
  | .nil, ht, hlen => by
    obtain rfl : ts = [] := ht
    simpa using hparts
  | .cons hv' hvs', ht, hlen => by
    obtain ⟨t, ts, rfl, hv, hvs⟩ := ht
    simp only [List.length_cons] at hlen
    have hsort := sort_value hv' hΓ hv
    subst hi
    have hnext := filled_literal (us ++ [t]) hvs' (by simp) hvs hΓ (by simp; omega)
      (hparts.literalPart hsort (by omega))
    simpa using hnext

/-- The parts of a literal tuple hold the first element of their sort elsewhere. -/
theorem filled_tuple : ∀ (v : Value) {r : EncodedTuple} {ts : List Ty} {d d' : Declarations},
    RunTuple env v d r d' → v.isFilled = true → v.Typed .queries Γ (.tuple ts) → env.Knows Γ →
      ∀ s ∈ tupleSorts ts,
        ∃ f, (part r.parts s).eval M = .array f ∧ ∀ j, ¬ HasSortAt ts s j → f j = f (firstOf ts s)
  | .tuple vs o, r, ts, d, d', h, _, ht, hΓ, s, hs => by
    obtain ⟨_, heq, hlen, hvs⟩ := ht
    obtain rfl := Ty.tuple.inj heq
    cases h with
    | literal _ _ hvs' =>
      have hnone : FilledParts M [] .empty := ⟨fun s hs => by simp at hs, fun s _ => rfl⟩
      have hfilled := filled_literal [] hvs' rfl hvs hΓ (by simpa [Bounds.queries] using hlen) hnone
      obtain ⟨p, f, hp, hf, hout⟩ := hfilled.held s (mem_tupleSorts.mp hs)
      exact ⟨f, by simpa only [part, hp, Option.getD_some] using hf, hout⟩
  | .ref v m o, r, ts, d, d', .ref _ _ hv, hfill, ht, hΓ, s, hs
  | .deref v o, r, ts, d, d', .deref _ _ hv, hfill, ht, hΓ, s, hs => filled_tuple v hv hfill ht hΓ s hs
  | .ite c v w o, r, ts, d, d', h, hfill, ht, hΓ, s, hs => by
    simp only [Value.isFilled, Bool.and_eq_true] at hfill
    cases h with
    | ite _ _ _ hv hw =>
      obtain ⟨f, hf, hfout⟩ := filled_tuple v hv hfill.1 ht.2.1 hΓ s hs
      obtain ⟨g, hg, hgout⟩ := filled_tuple w hw hfill.2 ht.2.2 hΓ s hs
      obtain ⟨p, hp, hp'⟩ := get?_of_part hf
      obtain ⟨q, hq, hq'⟩ := get?_of_part hg
      rw [hp'] at hf
      rw [hq'] at hg
      simp only [part, NameMap.get?_map, hp, hq, Option.map_some, Option.getD_some, Term.eval_ite, hf, hg]
      split_ifs
      · exact ⟨f, rfl, hfout⟩
      · exact ⟨g, rfl, hgout⟩
  | .array vs o, r, ts, d, d', h, _, _, _, _, _ => by cases h

/-! ### Values that agree -/

/-- Whether arrays of a model agree at all positions below a length. -/
def AgreeBelow (M : SmtModel) (n : ℕ) (a b : Term) : Prop :=
  ∀ j : ℤ, 0 ≤ j ∧ j < n → (a.eval M).get j = (b.eval M).get j

/-- Whether arrays of a model agree at all other positions. -/
def AgreeBeyond (M : SmtModel) (n : ℕ) (a b : Term) : Prop :=
  ∃ f g, a.eval M = .array f ∧ b.eval M = .array g ∧ ∀ j : ℤ, ¬ (0 ≤ j ∧ j < n) → f j = g j

/-- Whether the parts of tuples agree at all positions of their elements. -/
def PartsAgree (M : SmtModel) (ts : List Ty) (parts parts' : NameMap Term) : Prop :=
  ∀ s j, HasSortAt ts s j → ((part parts s).eval M).get j = ((part parts' s).eval M).get j

/-- Whether the parts of tuples agree at all other positions. -/
def PartsAgreeBeyond (M : SmtModel) (ts : List Ty) (parts parts' : NameMap Term) : Prop :=
  ∀ s ∈ tupleSorts ts, ∃ f g, (part parts s).eval M = .array f ∧ (part parts' s).eval M = .array g ∧
    ∀ j, ¬ HasSortAt ts s j → f j = g j

/-- Whether calls that differ in an argument only are the same in a model. -/
def CallsAgree (M : SmtModel) (env : Env) (a b : Value) : Prop :=
  ∀ f pre post o,
    (∀ r r', Yields (value env (.call f (pre ++ a :: post) o)) r →
      Yields (value env (.call f (pre ++ b :: post) o)) r' → r.term.eval M = r'.term.eval M) ∧
    ∀ r r', Yields (tuple env (.call f (pre ++ a :: post) o)) r →
      Yields (tuple env (.call f (pre ++ b :: post) o)) r' →
        ∀ s ∈ tupleSorts r.elements, (part r.parts s).eval M = (part r'.parts s).eval M

variable {a b : Value}

theorem eval_eq_of_agreeBelow {ra rb : Encoded} {u : Ty} (ha : a.Typed .queries Γ (.array u n))
    (hb : b.Typed .queries Γ (.array u n)) (hra : Yields (value env a) ra)
    (hrb : Yields (value env b) rb) (hbelow : AgreeBelow M n ra.term rb.term)
    (hbeyond : a.isFilled = true ∧ b.isFilled = true ∨ AgreeBeyond M n ra.term rb.term) :
    ra.term.eval M = rb.term.eval M := by
  obtain ⟨f, g, hf, hg, hfg⟩ : AgreeBeyond M n ra.term rb.term := by
    rcases hbeyond with ⟨hafill, hbfill⟩ | hbeyond
    · obtain ⟨_, _, hra⟩ := hra
      obtain ⟨_, _, hrb⟩ := hrb
      obtain ⟨hn, f, hf, hfout⟩ := filled_value a (runs_value hra) hafill ha
      obtain ⟨-, g, hg, hgout⟩ := filled_value b (runs_value hrb) hbfill hb
      refine ⟨f, g, hf, hg, fun j hj => ?_⟩
      have hzero : f 0 = g 0 := by
        simpa only [hf, hg, Datum.get] using hbelow 0 ⟨le_rfl, by exact_mod_cast hn⟩
      rw [hfout j hj, hgout j hj, hzero]
    · exact hbeyond
  rw [hf, hg]
  congr 1
  funext j
  by_cases hj : 0 ≤ j ∧ j < n
  · simpa only [hf, hg, Datum.get] using hbelow j hj
  · exact hfg j hj

theorem eval_eq_of_partsAgree {ra rb : EncodedTuple} (hΓ : env.Knows Γ) (ha : a.Typed .queries Γ (.tuple ts))
    (hb : b.Typed .queries Γ (.tuple ts)) (hra : Yields (tuple env a) ra) (hrb : Yields (tuple env b) rb)
    (hparts : PartsAgree M ts ra.parts rb.parts)
    (hbeyond : a.isFilled = true ∧ b.isFilled = true ∨ PartsAgreeBeyond M ts ra.parts rb.parts) :
    ∀ s ∈ tupleSorts ts, (part ra.parts s).eval M = (part rb.parts s).eval M := by
  intro s hs
  obtain ⟨f, g, hf, hg, hfg⟩ : ∃ f g, (part ra.parts s).eval M = .array f ∧
      (part rb.parts s).eval M = .array g ∧ ∀ j, ¬ HasSortAt ts s j → f j = g j := by
    rcases hbeyond with ⟨hafill, hbfill⟩ | hbeyond
    · obtain ⟨_, _, hra⟩ := hra
      obtain ⟨_, _, hrb⟩ := hrb
      obtain ⟨f, hf, hfout⟩ := filled_tuple a (runs_tuple hra) hafill ha hΓ s hs
      obtain ⟨g, hg, hgout⟩ := filled_tuple b (runs_tuple hrb) hbfill hb hΓ s hs
      refine ⟨f, g, hf, hg, fun j hj => ?_⟩
      have hfirst : f (firstOf ts s) = g (firstOf ts s) := by
        simpa only [hf, hg, Datum.get] using hparts s _ (hasSortAt_firstOf (mem_tupleSorts.mp hs))
      rw [hfout j hj, hgout j hj, hfirst]
    · exact hbeyond s hs
  rw [hf, hg]
  congr 1
  funext j
  by_cases hj : HasSortAt ts s j
  · simpa only [hf, hg, Datum.get] using hparts s j hj
  · exact hfg j hj

/-- The terms of arguments after the ones of an array. -/
theorem Yields.args_array {vs : List Value} {r : EncodedArgs} {u : Ty}
    (h : Yields (args env (v :: vs)) r) (hΓ : env.Knows Γ) (hv : v.Typed .queries Γ (.array u n)) :
    ∃ x rest, Yields (value env v) x ∧ Yields (args env vs) rest ∧ r.terms = x.term :: rest.terms := by
  obtain ⟨t, ht, hbare⟩ := (hv.extend v (hΓ.extends _)).typeOf v
  obtain ⟨d, d', h⟩ := h
  cases runs_args h with
  | tuple ht' hus =>
    obtain rfl := ok_unique ht ht'
    rw [← Ty.bare_underlying, hus] at hbare
    simp [Ty.bare] at hbare
  | value _ _ hx hrest => exact ⟨_, _, (always_value hx).yields, (always_args hrest).yields, rfl⟩

/-- The terms of arguments after the ones of a tuple. -/
theorem Yields.args_tuple {vs : List Value} {r : EncodedArgs} (h : Yields (args env (v :: vs)) r)
    (hΓ : env.Knows Γ) (hv : v.Typed .queries Γ (.tuple ts)) :
    ∃ x rest, Yields (tuple env v) x ∧ Yields (args env vs) rest ∧
      r.terms = (tupleSorts ts).map (part x.parts) ++ rest.terms := by
  obtain ⟨t, ht, hbare⟩ := (hv.extend v (hΓ.extends _)).typeOf v
  obtain ⟨d, d', h⟩ := h
  cases runs_args h with
  | tuple _ _ hx hrest =>
    refine ⟨_, _, (always_tuple hx).yields, (always_args hrest).yields, ?_⟩
    rw [← elements_tuple hx hΓ hv, tupleSorts_bareAll]
  | value ht' hnot =>
    obtain rfl := ok_unique ht ht'
    obtain ⟨us, hus, -⟩ := Ty.bare_eq_tuple hbare
    exact absurd hus (hnot us)

/-- Calls are the same if their arguments are from the differing one on. -/
theorem callsAgree_of_args (h : ∀ post r r', Yields (args env (a :: post)) r →
    Yields (args env (b :: post)) r' → Term.evalAll M r.terms = Term.evalAll M r'.terms) :
    CallsAgree M env a b := by
  have hargs : ∀ pre post r r', Yields (args env (pre ++ a :: post)) r →
      Yields (args env (pre ++ b :: post)) r' → Term.evalAll M r.terms = Term.evalAll M r'.terms := by
    intro pre post
    induction pre with
    | nil => exact h post
    | cons v pre ih =>
      rintro r r' ⟨d, d₁, hr⟩ ⟨e, e₁, hr'⟩
      cases runs_args hr with
      | tuple ht hus hx hrest =>
        cases runs_args hr' with
        | tuple _ _ hx' hrest' =>
          obtain rfl := (always_tuple hx).unique (always_tuple hx').yields
          have hrests := ih _ _ (always_args hrest).yields (always_args hrest').yields
          simp only [Term.evalAll_eq_map] at hrests
          simp only [Term.evalAll_eq_map, List.map_append, hrests]
        | value ht' hnot =>
          obtain rfl := ok_unique ht ht'
          exact absurd hus (hnot _)
      | value ht hnot hx hrest =>
        cases runs_args hr' with
        | tuple ht' hus =>
          obtain rfl := ok_unique ht ht'
          exact absurd hus (hnot _)
        | value _ _ hx' hrest' =>
          obtain rfl := (always_value hx).unique (always_value hx').yields
          simp only [Term.evalAll, ih _ _ (always_args hrest).yields (always_args hrest').yields]
  intro f pre post o
  constructor
  · rintro r r' ⟨d, d₁, hr⟩ ⟨e, e₁, hr'⟩
    cases runs_value hr with
    | call _ _ has =>
      cases runs_value hr' with
      | call _ _ has' =>
        simp only [Term.eval, hargs pre post _ _ (always_args has).yields (always_args has').yields]
  · rintro r r' ⟨d, d₁, hr⟩ ⟨e, e₁, hr'⟩ s hs
    cases runs_tuple hr with
    | call hg hts has hparts =>
      cases runs_tuple hr' with
      | call hg' hts' has' hparts' =>
        obtain rfl := Option.mem_unique hg hg'
        obtain rfl := Ty.tuple.inj (hts.symm.trans hts')
        simp only [part, hparts.callParts s (.inr hs), hparts'.callParts s (.inr hs), Option.getD_some,
          Term.eval, hargs pre post _ _ (always_args has).yields (always_args has').yields]

/-- Two well-typed values that agree at all their positions, and at the others, are encoded alike: the
equation of arrays is true, and calls that differ in them only are the same. Literals agree at other
positions by themselves. -/
theorem alike_of_agree (hΓ : env.Knows Γ) :
    (∀ u n ra rb, a.Typed .queries Γ (.array u n) → b.Typed .queries Γ (.array u n) →
      Yields (value env a) ra → Yields (value env b) rb → AgreeBelow M n ra.term rb.term →
      a.isFilled = true ∧ b.isFilled = true ∨ AgreeBeyond M n ra.term rb.term →
        (∀ r, Yields (formula env (.equal (.value a) (.value b))) r → r.term.Holds M) ∧
          CallsAgree M env a b) ∧
    (∀ ts ra rb, a.Typed .queries Γ (.tuple ts) → b.Typed .queries Γ (.tuple ts) →
      Yields (tuple env a) ra → Yields (tuple env b) rb → PartsAgree M ts ra.parts rb.parts →
      a.isFilled = true ∧ b.isFilled = true ∨ PartsAgreeBeyond M ts ra.parts rb.parts →
        CallsAgree M env a b) := by
  constructor
  · intro u n ra rb ha hb hra hrb hbelow hbeyond
    have heq := eval_eq_of_agreeBelow ha hb hra hrb hbelow hbeyond
    refine ⟨fun r hr => ?_, callsAgree_of_args fun post r r' hr hr' => ?_⟩
    · simp only [formula, expr] at hr
      obtain ⟨xa, hxa, hr⟩ := hr.bind
      obtain ⟨xb, hxb, hr⟩ := hr.bind
      obtain rfl := (steady_value a env).unique hra hxa
      obtain rfl := (steady_value b env).unique hrb hxb
      split_ifs at hr
      · obtain rfl := yields_pure hr
        exact (Term.Decides.eq ra.term rb.term).holds_iff.mpr heq
      · exact absurd hr not_yields_fail
    · obtain ⟨xa, rest, hxa, hrest, hterms⟩ := hr.args_array hΓ ha
      obtain ⟨xb, rest', hxb, hrest', hterms'⟩ := hr'.args_array hΓ hb
      obtain rfl := (steady_value a env).unique hra hxa
      obtain rfl := (steady_value b env).unique hrb hxb
      obtain rfl := (steady_args post env).unique hrest hrest'
      simp only [hterms, hterms', Term.evalAll, heq]
  · intro ts ra rb ha hb hra hrb hparts hbeyond
    have heq := eval_eq_of_partsAgree hΓ ha hb hra hrb hparts hbeyond
    refine callsAgree_of_args fun post r r' hr hr' => ?_
    obtain ⟨xa, rest, hxa, hrest, hterms⟩ := hr.args_tuple hΓ ha
    obtain ⟨xb, rest', hxb, hrest', hterms'⟩ := hr'.args_tuple hΓ hb
    obtain rfl := (steady_tuple a env).unique hra hxa
    obtain rfl := (steady_tuple b env).unique hrb hxb
    obtain rfl := (steady_args post env).unique hrest hrest'
    simp only [hterms, hterms', Term.evalAll_eq_map, List.map_append, List.map_map]
    congr 1
    exact List.map_congr_left heq

/-- The variables of the values below. -/
def pairScope : Scope := ⟨.ofList [("m", .i32), ("n", .i32)], []⟩

/-- A model in which all constants are zero. -/
def zeros : SmtModel := ⟨fun _ => .int 0, fun _ _ => .int 0, fun _ _ => 0⟩

/-- The encoding of an array of two integers. -/
def pairTerm (x y : Term) : Term := .store (.constArray .int x) (.int 1) y

theorem eval_pairTerm (x y : Term) : (pairTerm x y).eval M =
    .array (Function.update (fun _ => x.eval M) 1 (y.eval M)) := by
  simp [pairTerm, Term.eval_store, Term.eval, Datum.toInt, Datum.put]

theorem alike_of_agree_pairScope :
    (∃ r, Yields (formula (.ofScope pairScope) (.equal (.value (.array [.var "m", .int 1] none))
      (.value (.array [.var "n", .int 1] none)))) r ∧ r.term.Holds zeros) ∧
    CallsAgree zeros (.ofScope pairScope) (.tuple [.var "m", .int 1] none)
      (.tuple [.var "n", .int 1] none) := by
  have hΓ : (Env.ofScope pairScope).Knows pairScope := ⟨fun _ _ h => h, fun _ _ h => h⟩
  have hm : (Value.var "m").Typed .queries pairScope .i32 := ⟨.i32, by cbv, rfl⟩
  have hn : (Value.var "n").Typed .queries pairScope .i32 := ⟨.i32, by cbv, rfl⟩
  have hone : (Value.int 1).Typed .queries pairScope .i32 := ⟨rfl, rfl⟩
  have harray : ∀ v : Value, v.Typed .queries pairScope .i32 →
      (Value.array [v, .int 1] none).Typed .queries pairScope (.array .i32 2) := fun v hv =>
    ⟨.i32, rfl, ⟨by simp, by simp [Bounds.queries]⟩, _, _, rfl, hv, _, _, rfl, hone, rfl⟩
  have htuple : ∀ v : Value, v.Typed .queries pairScope .i32 →
      (Value.tuple [v, .int 1] none).Typed .queries pairScope (.tuple [.i32, .i32]) := fun v hv =>
    ⟨_, rfl, by simp [Bounds.queries], _, _, rfl, hv, _, _, rfl, hone, rfl⟩
  constructor
  · have hr : Yields (formula (.ofScope pairScope) (.equal (.value (.array [.var "m", .int 1] none))
        (.value (.array [.var "n", .int 1] none))))
        ⟨[], .eq (pairTerm (.const "m") (.int 1)) (pairTerm (.const "n") (.int 1)), .bool⟩ :=
      ⟨⟨.empty, .empty⟩, ⟨.ofList [("m", .int), ("n", .int)], .empty⟩, by cbv⟩
    refine ⟨_, hr, ((alike_of_agree hΓ).1 .i32 2 ⟨[], pairTerm (.const "m") (.int 1), .array .int⟩
      ⟨[], pairTerm (.const "n") (.int 1), .array .int⟩ (harray _ hm) (harray _ hn)
      ⟨⟨.empty, .empty⟩, ⟨.ofList [("m", .int)], .empty⟩, by cbv⟩
      ⟨⟨.empty, .empty⟩, ⟨.ofList [("n", .int)], .empty⟩, by cbv⟩ ?_ (.inl ⟨rfl, rfl⟩)).1 _ hr⟩
    intro j _
    simp only [eval_pairTerm, Term.eval, zeros]
  · refine (alike_of_agree hΓ).2 [.i32, .i32]
      ⟨[], .ofList [("Int", pairTerm (.const "m") (.int 1))], [.i32, .i32]⟩
      ⟨[], .ofList [("Int", pairTerm (.const "n") (.int 1))], [.i32, .i32]⟩ (htuple _ hm) (htuple _ hn)
      ⟨⟨.empty, .empty⟩, ⟨.ofList [("m", .int)], .empty⟩, by cbv⟩
      ⟨⟨.empty, .empty⟩, ⟨.ofList [("n", .int)], .empty⟩, by cbv⟩ ?_ (.inl ⟨rfl, rfl⟩)
    rintro s j ⟨k, t, ht, hs, -⟩
    obtain rfl : s = .int := by
      have hmem := List.mem_of_getElem? ht
      simp only [List.mem_cons, List.not_mem_nil, or_false, or_self] at hmem
      subst hmem
      exact (Except.ok.inj hs).symm
    have hpart : ∀ t, part (.ofList [("Int", t)]) .int = t := fun _ => rfl
    simp only [hpart, eval_pairTerm, Term.eval, zeros]

/-- `[1, 2]` with another element at `n`. -/
def stored : Value := .store .array (.array [.int 1, .int 2] none) (.var "n") (.int 3) none

/-- If the element that is replaced is the first, the array is not equal to the literal with the same
elements. -/
theorem not_alike_of_stored : ∃ ra rb r, Yields (value (.ofScope pairScope) stored) ra ∧
    Yields (value (.ofScope pairScope) (.array [.int 3, .int 2] none)) rb ∧
    Yields (formula (.ofScope pairScope) (.equal (.value stored)
      (.value (.array [.int 3, .int 2] none)))) r ∧
    stored.Typed .queries pairScope (.array .i32 2) ∧
    (Value.array [.int 3, .int 2] none).Typed .queries pairScope (.array .i32 2) ∧
    AgreeBelow zeros 2 ra.term rb.term ∧ ¬ r.term.Holds zeros := by
  have hint : ∀ k, (Value.int k).Typed .queries pairScope .i32 := fun k => ⟨rfl, rfl⟩
  have harray : ∀ k l, (Value.array [.int k, .int l] none).Typed .queries pairScope (.array .i32 2) :=
    fun k l => ⟨.i32, rfl, ⟨by simp, by simp [Bounds.queries]⟩, _, _, rfl, hint k, _, _, rfl, hint l, rfl⟩
  refine ⟨⟨[], .store (pairTerm (.int 1) (.int 2)) (.const "n") (.int 3), .array .int⟩,
    ⟨[], pairTerm (.int 3) (.int 2), .array .int⟩,
    ⟨[], .eq (.store (pairTerm (.int 1) (.int 2)) (.const "n") (.int 3)) (pairTerm (.int 3) (.int 2)),
      .bool⟩, ⟨⟨.empty, .empty⟩, ⟨.ofList [("n", .int)], .empty⟩, by cbv⟩,
    ⟨⟨.empty, .empty⟩, ⟨.empty, .empty⟩, by cbv⟩,
    ⟨⟨.empty, .empty⟩, ⟨.ofList [("n", .int)], .empty⟩, by cbv⟩,
    ⟨.i32, 2, rfl, harray 1 2, ⟨.i32, by cbv, rfl⟩, hint 3⟩, harray 3 2, ?_, ?_⟩
  · intro j hj
    obtain rfl | rfl : j = 0 ∨ j = 1 := by omega
    all_goals simp [Term.eval_store, eval_pairTerm, Term.eval, zeros, Datum.toInt, Datum.put, Datum.get]
  · intro h
    have heq := (Term.Decides.eq _ _).holds_iff.mp h
    simp only [Term.eval_store, eval_pairTerm, Term.eval, zeros, Datum.toInt, Datum.put,
      Datum.array.injEq] at heq
    simpa using congrFun heq 2

end Encoding

end Verdict
