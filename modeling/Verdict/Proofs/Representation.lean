import Verdict.Proofs.SolverNames

/-! # What represents a value in a model

A truth value, an integer and an array of them are represented by what a solver term can denote: an array
by the map that represents its content at every position, also at those it does not have. A tuple is
represented by one array for each sort of its elements, which holds the elements of that sort at their
positions. The arguments of a call are represented by a list in which tuples are replaced by their
parts; they can be read back if all elements of these tuples have a sort. -/

namespace Verdict

/-! ### Sorts of types -/

namespace Ty

variable {t : Ty} {s : SmtSort}

theorem sortOf_ref {m : Bool} : (Ty.ref t m).sortOf = .ok s ↔ t.sortOf = .ok s := by
  have hnone : ∀ u : Ty, (∀ e n, u.underlying ≠ .array e n) → u.underlying ≠ .bool →
      u.underlying ≠ .i32 → u.sortOf ≠ .ok s := by
    intro u
    cases u <;> simp_all [underlying, sortOf]
  simp only [sortOf]
  split <;> simp_all

theorem sortOf_array {n : ℕ} : (Ty.array t n).sortOf = .ok s ↔ ∃ e, s = .array e ∧ t.sortOf = .ok e := by
  simp only [sortOf]
  cases t.sortOf <;> simp [Except.map, eq_comm]

/-- References do not change the sort. -/
theorem sortOf_bare : ∀ {t : Ty} {s : SmtSort}, t.bare.sortOf = .ok s ↔ t.sortOf = .ok s
  | .bool, s | .i32, s | .unit, s | .unknown, s => by simp [bare]
  | .tuple ts, s => by simp [bare, sortOf]
  | .array t n, s => by simp only [bare, sortOf_array, sortOf_bare]
  | .ref t m, s => by rw [sortOf_ref, bare, sortOf_bare]

theorem toOption_sortOf_bare (t : Ty) : t.bare.sortOf.toOption = t.sortOf.toOption := by
  rcases hs : t.sortOf with e | s
  · rcases hs' : t.bare.sortOf with e' | s'
    · rfl
    · exact absurd (sortOf_bare.mp hs') (by simp [hs])
  · rw [sortOf_bare.mpr hs]

theorem sortOf_of_underlying_tuple : ∀ {t : Ty} {ts : List Ty}, t.underlying = .tuple ts →
    ∀ s, t.sortOf ≠ .ok s
  | .ref t m, ts, h, s => fun hs => sortOf_of_underlying_tuple (t := t) h s (sortOf_ref.mp hs)
  | .tuple _, ts, h, s => by simp [sortOf]
  | .bool, ts, h, s | .i32, ts, h, s | .unit, ts, h, s | .unknown, ts, h, s
  | .array _ _, ts, h, s => by simp [underlying] at h

theorem sortOf_of_underlying_array {e : Ty} {n : ℕ} (h : t.underlying = .array e n) (hs : e.sortOf = .ok s) :
    t.sortOf = .ok (.array s) := by
  rw [← sortOf_bare, ← bare_underlying, h, sortOf_bare]
  exact sortOf_array.mpr ⟨s, rfl, hs⟩

/-! ### Representations -/

/-- Whether something represents a value of a type. -/
def Represents : Ty → Val → Datum → Prop
  | .bool, v, d => ∃ b, v = .bool b ∧ d = .bool b
  | .i32, v, d => ∃ n, v = .int n ∧ d = .int n
  | .array t n, v, d => ∃ f g, v = .array n f ∧ d = .array g ∧ ∀ i, t.Represents (f i) (g i)
  | .ref t _, v, d => t.Represents v d
  | .unit, _, _ | .unknown, _, _ | .tuple _, _, _ => False

theorem represents_bare : ∀ {t : Ty} {v : Val} {d : Datum},
    t.bare.Represents v d ↔ t.Represents v d
  | .bool, v, d | .i32, v, d | .unit, v, d | .unknown, v, d | .tuple _, v, d => by
    simp only [bare, Represents]
  | .array t n, v, d | .ref t m, v, d => by simp only [bare, Represents, represents_bare]

/-- Values of a type are the same if and only if what represents them is. -/
theorem Represents.eq_iff : ∀ {t : Ty} {v w : Val} {d e : Datum}, t.Represents v d →
    t.Represents w e → (v = w ↔ d = e)
  | .bool, v, w, d, e, h, h' | .i32, v, w, d, e, h, h' => by
    obtain ⟨b, rfl, rfl⟩ := h
    obtain ⟨c, rfl, rfl⟩ := h'
    simp
  | .array t n, v, w, d, e, h, h' => by
    obtain ⟨f, g, rfl, rfl, h⟩ := h
    obtain ⟨f', g', rfl, rfl, h'⟩ := h'
    have hiff : ∀ i, f i = f' i ↔ g i = g' i := fun i => (h i).eq_iff (h' i)
    simp [funext_iff, hiff]
  | .ref t m, v, w, d, e, h, h' => by
    simp only [Represents] at h h'
    exact h.eq_iff h'
  | .unit, v, w, d, e, h, _ | .unknown, v, w, d, e, h, _ | .tuple _, v, w, d, e, h, _ => by
    simp only [Represents] at h

/-- What represents a value has the sort of its type. -/
theorem Represents.has : ∀ {t : Ty} {v : Val} {d : Datum} {s : SmtSort}, t.Represents v d →
    t.sortOf = .ok s → s.Has d
  | .bool, v, d, s, h, hs => by
    obtain ⟨b, -, rfl⟩ := h
    obtain rfl := Except.ok.inj hs
    exact ⟨b, rfl⟩
  | .i32, v, d, s, h, hs => by
    obtain ⟨n, -, rfl⟩ := h
    obtain rfl := Except.ok.inj hs
    exact ⟨n, rfl⟩
  | .array t n, v, d, s, h, hs => by
    obtain ⟨f, g, -, rfl, h⟩ := h
    obtain ⟨e, rfl, he⟩ := sortOf_array.mp hs
    exact ⟨g, rfl, fun i => (h i).has he⟩
  | .ref t m, v, d, s, h, hs => by
    simp only [Represents] at h
    exact h.has (sortOf_ref.mp hs)
  | .unit, v, d, s, h, _ | .unknown, v, d, s, h, _ | .tuple _, v, d, s, h, _ => by
    simp only [Represents] at h

theorem Represents.value_has : ∀ {t : Ty} {v : Val} {d : Datum}, t.Represents v d → t.Has v
  | .bool, v, d, h | .i32, v, d, h => by
    obtain ⟨b, rfl, -⟩ := h
    exact ⟨b, rfl⟩
  | .array t n, v, d, h => by
    obtain ⟨f, g, rfl, -, h⟩ := h
    exact ⟨f, rfl, fun i => (h i).value_has⟩
  | .ref t m, v, d, h => by
    simp only [Represents] at h
    exact h.value_has
  | .unit, v, d, h | .unknown, v, d, h | .tuple _, v, d, h => by simp only [Represents] at h

end Ty

/-- What represents a value, if it is not a tuple. -/
def Val.datum : Val → Datum
  | .int n => .int n
  | .bool b => .bool b
  | .array _ f => .array fun i => (f i).datum
  | .unit | .tuple _ => .bool false

namespace Ty

/-- Values of a type with a sort are represented. -/
theorem represents_datum : ∀ {t : Ty} {v : Val} {s : SmtSort}, t.sortOf = .ok s → t.Has v →
    t.Represents v v.datum
  | .bool, v, s, _, h => by
    obtain ⟨b, rfl⟩ := h
    exact ⟨b, rfl, rfl⟩
  | .i32, v, s, _, h => by
    obtain ⟨n, rfl⟩ := h
    exact ⟨n, rfl, rfl⟩
  | .array t n, v, s, hs, h => by
    obtain ⟨f, rfl, h⟩ := h
    obtain ⟨e, rfl, he⟩ := sortOf_array.mp hs
    exact ⟨f, _, rfl, rfl, fun i => represents_datum he (h i)⟩
  | .ref t m, v, s, hs, h => by
    simpa only [Represents] using represents_datum (sortOf_ref.mp hs) h
  | .unit, v, s, hs, _ | .unknown, v, s, hs, _ | .tuple _, v, s, hs, _ => by simp [sortOf] at hs

/-- The value of a type that something represents. -/
def read : Ty → Datum → Val
  | .bool, d => .bool d.isTrue
  | .i32, d => .int d.toInt
  | .array t n, d => .array n fun i => t.read (d.get i)
  | .ref t _, d => t.read d
  | .unit, _ | .unknown, _ | .tuple _, _ => .unit

theorem Represents.read_eq : ∀ {t : Ty} {v : Val} {d : Datum}, t.Represents v d → t.read d = v
  | .bool, v, d, h | .i32, v, d, h => by
    obtain ⟨b, rfl, rfl⟩ := h
    rfl
  | .array t n, v, d, h => by
    obtain ⟨f, g, rfl, rfl, h⟩ := h
    simp only [read, Datum.get, (h _).read_eq]
  | .ref t m, v, d, h => by
    simp only [Represents] at h
    exact h.read_eq
  | .unit, v, d, h | .unknown, v, d, h | .tuple _, v, d, h => by simp only [Represents] at h

/-- Everything of the sort of a type represents a value of the type. -/
theorem represents_read : ∀ {t : Ty} {d : Datum} {s : SmtSort}, t.sortOf = .ok s → s.Has d →
    t.Has (t.read d) ∧ t.Represents (t.read d) d
  | .bool, d, s, hs, h => by
    obtain rfl := Except.ok.inj hs
    obtain ⟨b, rfl⟩ := h
    exact ⟨⟨b, rfl⟩, b, rfl, rfl⟩
  | .i32, d, s, hs, h => by
    obtain rfl := Except.ok.inj hs
    obtain ⟨n, rfl⟩ := h
    exact ⟨⟨n, rfl⟩, n, rfl, rfl⟩
  | .array t n, d, s, hs, h => by
    obtain ⟨e, rfl, he⟩ := sortOf_array.mp hs
    obtain ⟨g, rfl, h⟩ := h
    exact ⟨⟨_, rfl, fun i => (represents_read he (h i)).1⟩,
      _, g, rfl, rfl, fun i => (represents_read he (h i)).2⟩
  | .ref t m, d, s, hs, h => by
    simpa only [Represents, Has, read] using represents_read (sortOf_ref.mp hs) h
  | .unit, d, s, hs, _ | .unknown, d, s, hs, _ | .tuple _, d, s, hs, _ => by simp [sortOf] at hs

end Ty

@[simp] theorem Ty.length_bareAll (ts : List Ty) : (Ty.bareAll ts).length = ts.length := by
  rw [Ty.bareAll_eq_map, List.length_map]

/-! ### Tuples -/

/-- Whether arrays, one for each sort, represent a tuple with elements of some types. -/
def PartsRepresent (ts : List Ty) (v : Val) (parts : SmtSort → Datum) : Prop :=
  ∃ vs, v = .tuple vs ∧ vs.length = ts.length ∧
    ∀ (i : ℕ) (t : Ty) (w : Val) (s : SmtSort), ts[i]? = some t → vs[i]? = some w →
      t.sortOf = .ok s → ∃ f, parts s = .array f ∧ t.Represents w (f i)

variable {v : Val} {ts : List Ty} {parts : SmtSort → Datum}

theorem PartsRepresent.bareAll (h : PartsRepresent ts v parts) : PartsRepresent (Ty.bareAll ts) v parts := by
  obtain ⟨vs, rfl, hlen, h⟩ := h
  refine ⟨vs, rfl, by simpa using hlen, fun i t w s ht hw hs => ?_⟩
  rw [Ty.getElem?_bareAll, Option.map_eq_some_iff] at ht
  obtain ⟨u, hu, rfl⟩ := ht
  obtain ⟨f, hf, hrep⟩ := h i u w s hu hw (Ty.sortOf_bare.mp hs)
  exact ⟨f, hf, Ty.represents_bare.mpr hrep⟩

theorem Ty.hasAll_of_getElem? {vs : List Val} (hlen : vs.length = ts.length)
    (h : ∀ (i : ℕ) (t : Ty) (v : Val), ts[i]? = some t → vs[i]? = some v → t.Has v) : Ty.HasAll ts vs :=
  Ty.hasAll_iff.mpr (List.forall₂_iff_get.mpr ⟨hlen, fun i hv ht => h i _ _ (by simp) (by simp)⟩)

theorem PartsRepresent.has (h : PartsRepresent ts v parts) (hts : ∀ t ∈ ts, ∃ s, t.sortOf = .ok s) :
    (Ty.tuple ts).Has v := by
  obtain ⟨vs, rfl, hlen, h⟩ := h
  refine ⟨vs, rfl, Ty.hasAll_of_getElem? hlen fun i t w ht hw => ?_⟩
  obtain ⟨s, hs⟩ := hts t (List.mem_of_getElem? ht)
  obtain ⟨f, -, hrep⟩ := h i t w s ht hw hs
  exact hrep.value_has

/-- The tuple that some parts represent. -/
def readTuple (ts : List Ty) (parts : SmtSort → Datum) : List Val :=
  ts.mapIdx fun i t =>
    match t.sortOf with
    | .ok s => t.read ((parts s).get i)
    | .error _ => .unit

/-- A tuple can be read back if all its elements have a sort. -/
theorem PartsRepresent.readTuple_eq (h : PartsRepresent ts v parts) (hts : ∀ t ∈ ts, ∃ s, t.sortOf = .ok s) :
    Val.tuple (readTuple ts parts) = v := by
  obtain ⟨vs, rfl, hlen, h⟩ := h
  congr 1
  refine List.ext_getElem? fun i => ?_
  rw [readTuple, List.getElem?_mapIdx]
  rcases ht : ts[i]? with _ | t
  · have hi : ts.length ≤ i := List.getElem?_eq_none_iff.mp ht
    rw [List.getElem?_eq_none (by omega)]
    rfl
  · have hi : i < ts.length := (List.getElem?_eq_some_iff.mp ht).1
    have hw : vs[i]? = some (vs.get ⟨i, by omega⟩) := by simp
    obtain ⟨s, hs⟩ := hts t (List.mem_of_getElem? ht)
    obtain ⟨f, hf, hrep⟩ := h i t _ s ht hw hs
    rw [hw, Option.map_some, hs]
    simp only [hf, Datum.get, hrep.read_eq]

namespace Encoding

/-- The map of sorts by their tags, after some more of them. -/
theorem entries_foldl_tags (ss : List SmtSort) (m : NameMap SmtSort) :
    let m' := (ss.map fun s => (s.tag, s)).foldl (fun m e => m.insert e.1 e.2) m
    (∀ e ∈ m'.entries, e ∈ m.entries ∨ e.2 ∈ ss) ∧
      ∀ s, s ∈ ss ∨ m.get? s.tag = some s → m'.get? s.tag = some s := by
  induction ss generalizing m with
  | nil => simp
  | cons s ss ih =>
    obtain ⟨hmem, hget⟩ := ih (m.insert s.tag s)
    refine ⟨fun e he => ?_, fun s' hs' => hget s' ?_⟩
    · rcases hmem e he with he | he
      · rcases NameMap.mem_insertEntry he with rfl | he
        · simp
        · exact .inl he
      · exact .inr (List.mem_cons_of_mem s he)
    · rw [NameMap.get?_insert]
      by_cases htag : s.tag = s'.tag
      · rw [if_pos htag, tag_injective htag]
        exact .inr rfl
      · rw [if_neg htag]
        rcases hs' with hs' | hs'
        · exact .inl ((List.mem_cons.mp hs').resolve_left fun h => htag (h ▸ rfl))
        · exact .inr hs'

/-- The sorts of a tuple are those of its elements. -/
theorem mem_tupleSorts {s : SmtSort} : s ∈ tupleSorts ts ↔ ∃ t ∈ ts, t.sortOf = .ok s := by
  obtain ⟨hmem, hget⟩ := entries_foldl_tags (ts.filterMap fun t => t.sortOf.toOption) .empty
  have hsort : s ∈ ts.filterMap (fun t => t.sortOf.toOption) ↔ ∃ t ∈ ts, t.sortOf = .ok s := by
    rw [List.mem_filterMap]
    exact exists_congr fun t => and_congr_right fun _ => toOption_eq_some
  rw [← hsort]
  constructor
  · intro h
    obtain ⟨e, he, rfl⟩ := List.mem_map.mp h
    exact (hmem e he).resolve_left (by simp [NameMap.empty])
  · intro h
    exact List.mem_map.mpr ⟨_, NameMap.mem_of_find (hget s (.inl h)), rfl⟩

theorem tupleSorts_bareAll (ts : List Ty) : tupleSorts (Ty.bareAll ts) = tupleSorts ts := by
  unfold tupleSorts
  rw [Ty.bareAll_eq_map, List.filterMap_map]
  simp only [Function.comp_def, Ty.toOption_sortOf_bare]

end Encoding

/-! ### Arguments -/

open Encoding

/-- The arguments of some types that a list represents in which tuples are replaced by their parts. -/
def readArgs : List Ty → List Datum → List Val
  | [], _ => []
  | t :: ts, ds =>
    match t.underlying with
    | .tuple us =>
      .tuple (readTuple us fun s => (ds[(tupleSorts us).idxOf s]?).getD (.bool false)) ::
        readArgs ts (ds.drop (tupleSorts us).length)
    | _ => t.read (ds.headD (.bool false)) :: readArgs ts ds.tail

theorem readArgs_tuple {t : Ty} {us : List Ty} (ht : t.underlying = .tuple us) (ts : List Ty)
    (parts : SmtSort → Datum) (ds : List Datum) :
    readArgs (t :: ts) ((tupleSorts us).map parts ++ ds) =
      .tuple (readTuple us parts) :: readArgs ts ds := by
  have hparts : ∀ s ∈ tupleSorts us,
      (((tupleSorts us).map parts ++ ds)[(tupleSorts us).idxOf s]?).getD (.bool false) = parts s := by
    intro s hs
    have hlt := List.idxOf_lt_length_of_mem hs
    rw [List.getElem?_append_left (by simpa using hlt), List.getElem?_map,
      List.getElem?_eq_getElem hlt, List.getElem_idxOf]
    rfl
  simp only [readArgs, ht]
  congr 2
  · refine List.mapIdx_eq_mapIdx_iff.mpr fun i hi => ?_
    split
    · next s hs =>
      dsimp only
      rw [hparts s (mem_tupleSorts.mpr ⟨_, List.getElem_mem hi, hs⟩)]
    · rfl
  · simp

theorem readArgs_cons {t : Ty} {d : Datum} (h : t.Represents v d) (ts : List Ty) (ds : List Datum) :
    readArgs (t :: ts) (d :: ds) = v :: readArgs ts ds := by
  have hne : ∀ us, t.underlying ≠ .tuple us := by
    intro us hus
    rw [← Ty.represents_bare, ← Ty.bare_underlying, hus] at h
    simp [Ty.bare, Ty.Represents] at h
  rw [readArgs]
  split
  · next us hus => exact absurd hus (hne us)
  · rw [List.headD_cons, h.read_eq, List.tail_cons]

end Verdict
