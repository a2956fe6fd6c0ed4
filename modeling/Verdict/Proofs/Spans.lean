import Verdict.Proofs.Grammar
import Verdict.Source.SpanMap

/-! # Spans of S-expressions

Reading gives every tree the span of the item that it was read from. So the text of a span is that of one term
and of nothing else, from its first character to its last one, and it is read alone as the same term
(`STree.Placed`). Trees that are read one after the other stand one after the other, and the elements of a list
stand between its brackets.

It follows that no two of the trees that are read are equal, wherever they are nested, even if they are trees of
one S-expression. So a span map in which each tree is recorded when it is completed never meets a tree that it
holds already, and afterwards it knows the span of every one of them (`STree.spans_exact`). -/

namespace Verdict

/-! ### Recording many items -/

namespace SpanMap

variable {κ : Type} [DecidableEq κ] {key : κ}

theorem get?_eq_none {entries : List (κ × Span)} (h : key ∉ entries.map Prod.fst) :
    (SpanMap.mk entries).get? key = none := by
  rw [get?, List.lookup_eq_none_iff]
  intro e he
  exact bne_iff_ne.mpr fun heq => h (heq ▸ List.mem_map_of_mem he)

theorem put_of_not_mem {m : SpanMap κ} (h : key ∉ m.entries.map Prod.fst) (span : Span) :
    m.put key span = .ok ⟨m.entries ++ [(key, span)]⟩ := by
  have hget : m.get? key = none := get?_eq_none h
  simp [put, contains, hget]

/-- Items that differ from one another and from those already there are recorded in order. -/
theorem foldlM_put (spanOf : κ → Span) (keys : List κ) (m : SpanMap κ)
    (h : (m.entries.map Prod.fst ++ keys).Nodup) :
    keys.foldlM (fun m key => m.put key (spanOf key)) m =
      .ok ⟨m.entries ++ keys.map fun key => (key, spanOf key)⟩ := by
  induction keys generalizing m with
  | nil => simp [pure, Except.pure]
  | cons key keys ih =>
    have hnew : key ∉ m.entries.map Prod.fst := by
      intro hmem
      exact (List.nodup_append.mp h).2.2 key hmem key List.mem_cons_self rfl
    rw [List.foldlM_cons, put_of_not_mem hnew]
    refine (ih ⟨m.entries ++ [(key, spanOf key)]⟩ (by simpa using h)).trans ?_
    simp

/-- What has been recorded is found. -/
theorem get_of_mem (spanOf : κ → Span) {keys : List κ} (h : key ∈ keys) :
    (SpanMap.mk (keys.map fun key => (key, spanOf key))).get key = .ok (spanOf key) := by
  have hlookup : (keys.map fun key => (key, spanOf key)).lookup key = some (spanOf key) := by
    induction keys with
    | nil => cases h
    | cons k keys ih =>
      rw [List.map_cons, List.lookup_cons]
      by_cases hk : key = k
      · subst hk
        simp
      · have hne : (key == k) = false := beq_false_of_ne hk
        rw [hne]
        exact ih ((List.mem_cons.mp h).resolve_left hk)
  simp [get, get?, hlookup]

end SpanMap

namespace STree

open Token Item

/-! ### Trees and their parts -/

mutual

/-- Equality of trees is decidable. -/
def decEq : (a b : STree) → Decidable (a = b)
  | symbol s v, symbol s' v' => decidable_of_iff (s = s' ∧ v = v') (by simp)
  | list s ts, list s' ts' =>
    match decEqs ts ts' with
    | isTrue h => decidable_of_iff (s = s') (by simp [h])
    | isFalse h => isFalse (by simp [h])
  | symbol _ _, list _ _ => isFalse (by simp)
  | list _ _, symbol _ _ => isFalse (by simp)

def decEqs : (ts us : List STree) → Decidable (ts = us)
  | [], [] => isTrue rfl
  | t :: ts, u :: us =>
    match decEq t u, decEqs ts us with
    | isTrue h, isTrue hs => isTrue (by rw [h, hs])
    | isFalse h, _ => isFalse (by simp [h])
    | _, isFalse h => isFalse (by simp [h])
  | [], _ :: _ => isFalse (by simp)
  | _ :: _, [] => isFalse (by simp)

end

instance : DecidableEq STree := decEq

mutual

/-- A tree and all trees in it, in the order in which reading completes them. -/
def parts : STree → List STree
  | symbol span value => [symbol span value]
  | list span elements => partsAll elements ++ [list span elements]

/-- Several trees and all trees in them, in the order in which reading completes them. -/
def partsAll : List STree → List STree
  | [] => []
  | t :: ts => t.parts ++ partsAll ts

end

/-- Records where some trees and all trees in them stand. -/
def register (trees : List STree) : Except (SpanMapError STree) (SpanMap STree) :=
  (partsAll trees).foldlM (fun m t => m.put t t.span) SpanMap.empty

theorem partsAll_append (ts us : List STree) : partsAll (ts ++ us) = partsAll ts ++ partsAll us := by
  induction ts with
  | nil => rfl
  | cons t ts ih => rw [List.cons_append, partsAll, partsAll, ih, List.append_assoc]

theorem self_mem_parts (t : STree) : t ∈ t.parts := by
  cases t <;> simp [parts]

variable {t : STree} {i : Item} {pos : ℕ} {cs : List Char}

theorem mem_partsAll {ts : List STree} (h : t ∈ ts) : t ∈ partsAll ts := by
  induction ts with
  | nil => cases h
  | cons u ts ih =>
    rw [partsAll, List.mem_append]
    rcases List.mem_cons.mp h with rfl | h
    · exact .inl (self_mem_parts t)
    · exact .inr (ih h)

/-! ### Where the tree of an item stands -/

/-- An item that is written correctly in front of some character is so at the end of a text. -/
theorem fits_none {after : Option Char} (h : i.Fits after) : i.Fits none := by
  cases i with
  | space c => exact h
  | comment cs => exact ⟨h.1, fun c hc => by cases hc⟩
  | bars cs => exact h
  | word cs => exact ⟨h.1, h.2.1, fun c hc => by cases hc⟩
  | list items => exact h

/-- Whether a tree is that of an item in a text whose first character has position `pos`. -/
def StandsIn (cs : List Char) (pos : ℕ) (t : STree) : Prop :=
  ∃ (i : Item) (before after : List Char), cs = before ++ (i.text ++ after) ∧ i.Fits none ∧
    i.treesAt (pos + before.length) = [t]

theorem StandsIn.append (h : StandsIn cs pos t) (rest : List Char) :
    StandsIn (cs ++ rest) pos t := by
  obtain ⟨i, before, after, rfl, hi, ht⟩ := h
  exact ⟨i, before, after ++ rest, by simp only [List.append_assoc], hi, ht⟩

theorem StandsIn.behind {front cs : List Char} {pos : ℕ} {t : STree}
    (h : StandsIn cs (pos + front.length) t) : StandsIn (front ++ cs) pos t := by
  obtain ⟨i, before, after, rfl, hi, ht⟩ := h
  refine ⟨i, front ++ before, after, by rw [List.append_assoc], hi, ?_⟩
  rwa [List.length_append, ← add_assoc]

theorem standsIn_text {after : Option Char} (h : i.Fits after) (ht : i.treesAt pos = [t]) :
    StandsIn i.text pos t :=
  ⟨i, [], [], by simp, fits_none h, ht⟩

mutual

/-- Every part of the tree of an item is the tree of an item in its text. -/
theorem standsIn_of_mem : ∀ (i : Item) {after : Option Char}, i.Fits after → ∀ (pos : ℕ) {t : STree},
    t ∈ partsAll (i.treesAt pos) → StandsIn i.text pos t
  | .space _, _, _, _, _, ht | .comment _, _, _, _, _, ht => by cases ht
  | .bars _, _, h, _, _, ht | .word _, _, h, _, _, ht => by
    obtain rfl := List.mem_singleton.mp ht
    exact standsIn_text h rfl
  | .list items, _, h, pos, t, ht => by
    rw [treesAt, partsAll, parts, partsAll, List.append_nil, List.mem_append] at ht
    rcases ht with ht | ht
    · have hinner := standsIn_of_mem_all items h (pos + 1) ht
      exact @StandsIn.behind ['('] _ pos t (hinner.append [')'])
    · obtain rfl := List.mem_singleton.mp ht
      exact standsIn_text h rfl

theorem standsIn_of_mem_all : ∀ (items : List Item) {after : Option Char}, FitAll after items →
    ∀ (pos : ℕ) {t : STree}, t ∈ partsAll (treesAllAt pos items) → StandsIn (textAll items) pos t
  | [], _, _, _, _, ht => by cases ht
  | i :: is, _, h, pos, t, ht => by
    rw [treesAllAt, partsAll_append, List.mem_append] at ht
    rcases ht with ht | ht
    · exact (standsIn_of_mem i h.1 pos ht).append _
    · exact (standsIn_of_mem_all is h.2 _ ht).behind

end

theorem span_of_treesAt (h : i.treesAt pos = [t]) : t.span = Span.ofLength pos i.text.length := by
  cases i with
  | space c => cases h
  | comment cs => cases h
  | bars cs | word cs | list items =>
    obtain rfl := List.singleton_injective h
    simp [span, text]

/-- The span of a tree in a text is not empty and does not leave the text. -/
theorem StandsIn.bounds (h : StandsIn cs pos t) :
    (pos : ℤ) ≤ t.span.start ∧ t.span.start < t.span.stop ∧ t.span.stop ≤ pos + cs.length := by
  obtain ⟨i, before, after, rfl, hi, ht⟩ := h
  have hpos := length_text_pos hi
  rw [span_of_treesAt ht]
  simp only [Span.start_ofLength, Span.stop_ofLength, List.length_append]
  omega

/-! ### Trees stand one after the other -/

/-- Whether trees stand one after the other. -/
def InOrder (ts : List STree) : Prop := ts.Pairwise fun a b => a.span.stop ≤ b.span.start

theorem inOrder_treesAllAt : ∀ (items : List Item) {after : Option Char}, FitAll after items → ∀ pos : ℕ,
    InOrder (treesAllAt pos items)
  | [], _, _, _ => List.Pairwise.nil
  | i :: is, _, h, pos => by
    have hsingle : InOrder (i.treesAt pos) := by
      cases i with
      | space _ | comment _ => exact List.Pairwise.nil
      | bars _ | word _ | list _ => exact List.pairwise_singleton _ _
    refine List.pairwise_append.mpr ⟨hsingle, inOrder_treesAllAt is h.2 _, fun a ha b hb => ?_⟩
    have hfirst := (standsIn_of_mem i h.1 pos (mem_partsAll ha)).bounds
    have hsecond := (standsIn_of_mem_all is h.2 _ (mem_partsAll hb)).bounds
    push_cast at hsecond
    omega

mutual

theorem nodup_partsAll_treesAt : ∀ (i : Item) {after : Option Char}, i.Fits after → ∀ pos : ℕ,
    (partsAll (i.treesAt pos)).Nodup
  | .space _, _, _, _ | .comment _, _, _, _ => List.nodup_nil
  | .bars _, _, _, _ | .word _, _, _, _ => List.nodup_singleton _
  | .list items, _, h, pos => by
    rw [treesAt, partsAll, parts, partsAll, List.append_nil]
    refine List.nodup_append.mpr ⟨nodup_partsAll_treesAllAt items h (pos + 1), List.nodup_singleton _, ?_⟩
    -- The list itself starts with its bracket, in front of all its parts.
    rintro a ha _ hb rfl
    have hinner := (standsIn_of_mem_all items h (pos + 1) ha).bounds
    rw [List.mem_singleton.mp hb] at hinner
    simp only [span, Span.start_ofLength] at hinner
    omega

theorem nodup_partsAll_treesAllAt : ∀ (items : List Item) {after : Option Char}, FitAll after items →
    ∀ pos : ℕ, (partsAll (treesAllAt pos items)).Nodup
  | [], _, _, _ => List.nodup_nil
  | i :: is, _, h, pos => by
    rw [treesAllAt, partsAll_append]
    refine List.nodup_append.mpr
      ⟨nodup_partsAll_treesAt i h.1 pos, nodup_partsAll_treesAllAt is h.2 _, ?_⟩
    rintro a ha _ hb rfl
    have hfirst := (standsIn_of_mem i h.1 pos ha).bounds
    have hsecond := (standsIn_of_mem_all is h.2 _ hb).bounds
    push_cast at hsecond
    omega

end

/-! ### The text of a span -/

/-- Whether a text is that of a tree from its first character to its last one: of a list with its brackets, of a
symbol with its bars if it has some. -/
def IsTextOf (text : String) : STree → Prop
  | symbol _ value => text = value ∨ text = "|" ++ value ++ "|"
  | list _ _ => ∃ inner, text = "(" ++ inner ++ ")"

theorem isTextOf_text (h : i.treesAt pos = [t]) : t.IsTextOf (String.ofList i.text) := by
  cases i with
  | space c => cases h
  | comment cs => cases h
  | bars cs =>
    obtain rfl := List.singleton_injective h
    exact .inr (String.toList_inj.mp (by simp [text]))
  | word cs =>
    obtain rfl := List.singleton_injective h
    exact .inl rfl
  | list items =>
    obtain rfl := List.singleton_injective h
    exact ⟨String.ofList (textAll items), String.toList_inj.mp (by simp [text])⟩

/-- The text of a single item is read as the term that it is, wherever the item comes from. -/
theorem read_text (hi : i.Fits none) (ht : i.treesAt pos = [t]) :
    SExp.read (String.ofList i.text) = .ok t.erase := by
  have hspells : Spells [i] i.text := ⟨by rw [textAll, textAll, List.append_nil], hi, trivial⟩
  -- Its tree at the start of a text differs from the one at `pos` in the spans only.
  have hterms : eraseAll (i.treesAt 0) = [t.erase] := by
    rw [eraseAll_treesAt i 0, ← eraseAll_treesAt i pos, ht]
    rfl
  obtain ⟨tree, htree, herase⟩ : ∃ tree, i.treesAt 0 = [tree] ∧ tree.erase = t.erase := by
    cases hzero : i.treesAt 0 with
    | nil => rw [hzero] at hterms; cases hterms
    | cons tree trees =>
      rw [hzero] at hterms
      obtain ⟨herase, htrees⟩ := List.cons.inj hterms
      cases trees with
      | nil => exact ⟨tree, rfl, herase⟩
      | cons _ _ => cases htrees
  have hread : STree.read (.ofString "<string>" (String.ofList i.text)) = .ok tree := by
    refine read_eq_ok_iff.mpr (readAll_eq_iff.mpr ⟨[i], ?_, ?_⟩)
    · rwa [SourceFile.ofString, String.toList_ofList]
    · rw [treesAllAt, treesAllAt, htree]
      rfl
  rw [SExp.read, hread, ← herase]
  rfl

theorem textOf?_ofLength {f : SourceFile} {before after : List Char}
    (h : f.text = before ++ (cs ++ after)) :
    f.textOf? (Span.ofLength before.length cs.length) = some (String.ofList cs) := by
  have hstop : min ((before.length : ℤ) + cs.length) f.text.length = ((before.length + cs.length : ℕ) : ℤ) := by
    rw [h, List.length_append, List.length_append]
    push_cast
    omega
  have htake : (f.text.take (before.length + cs.length)).drop before.length = cs := by
    rw [h, ← List.append_assoc, List.take_left' List.length_append, List.drop_left]
  simp only [SourceFile.textOf?, Span.start_ofLength, Span.stop_ofLength, hstop, Int.toNat_natCast, htake]
  rw [if_pos (by omega)]

/-! ### Trees where they were read -/

/-- Whether the span of a tree in a file is that of its text, from the first character to the last one, and the
spans of its elements are in order and between its brackets. -/
structure Placed (f : SourceFile) (t : STree) : Prop where
  inside : 0 ≤ t.span.start ∧ t.span.start < t.span.stop ∧ t.span.stop ≤ f.text.length
  text : ∃ text, f.textOf? t.span = some text ∧ t.IsTextOf text ∧ SExp.read text = .ok t.erase
  elements : ∀ {span es}, t = .list span es →
    (∀ e ∈ es, span.start < e.span.start ∧ e.span.stop < span.stop) ∧ InOrder es

theorem StandsIn.placed {f : SourceFile} (h : StandsIn f.text 0 t) : Placed f t := by
  have hbounds := h.bounds
  obtain ⟨i, before, after, htext, hi, ht⟩ := h
  rw [zero_add] at ht
  have hspan := span_of_treesAt ht
  refine ⟨by omega, ⟨String.ofList i.text, ?_, isTextOf_text ht, read_text hi ht⟩, ?_⟩
  · rw [hspan]
    exact textOf?_ofLength htext
  · rintro span es rfl
    cases i with
    | space c => cases ht
    | comment cs => cases ht
    | bars cs => cases ht
    | word cs => cases ht
    | list items =>
      obtain ⟨rfl, rfl⟩ := STree.list.inj (List.singleton_injective ht)
      refine ⟨fun e he => ?_, inOrder_treesAllAt items hi _⟩
      have hinner := (standsIn_of_mem_all items hi _ (mem_partsAll he)).bounds
      simp only [Span.start_ofLength, Span.stop_ofLength]
      push_cast at hinner ⊢
      omega

/-- The spans that reading gives are exact. Every tree that is read, at the top or in a list, is recorded in the
span map once, so that a message about it finds its span there; the span is that of its own text, which is read
alone as the same term; the elements of a list stand in order between its brackets; and so do the trees at the
top, one after the other. -/
theorem spans_exact {f : SourceFile} {trees : List STree} (h : readAll f = (trees, none)) :
    (∃ m, register trees = .ok m ∧ m.entries = (partsAll trees).map (fun t => (t, t.span)) ∧
      (partsAll trees).Nodup ∧
      ∀ t ∈ partsAll trees, ∀ message, m.syntaxError t message = .ok ⟨t.span, message⟩) ∧
    (∀ t ∈ partsAll trees, Placed f t) ∧ InOrder trees := by
  obtain ⟨items, hspells, rfl⟩ := readAll_eq_iff.mp h
  have hnodup := nodup_partsAll_treesAllAt items hspells.fits 0
  refine ⟨⟨⟨(partsAll (treesAllAt 0 items)).map fun t => (t, t.span)⟩, ?_, rfl, hnodup, ?_⟩, ?_, ?_⟩
  · exact SpanMap.foldlM_put span _ SpanMap.empty hnodup
  · intro t ht message
    rw [SpanMap.syntaxError, SpanMap.get_of_mem span ht]
    rfl
  · intro t ht
    have hstands := standsIn_of_mem_all items hspells.fits 0 ht
    rw [hspells.text_eq] at hstands
    exact hstands.placed
  · exact inOrder_treesAllAt items hspells.fits 0

/-- A file with one list twice, on two lines, and a comment between them. -/
def twice : SourceFile := .ofString "twice" "(a |b c|) ; x\n(a |b c|)"

def twiceTrees : List STree :=
  [.list (Span.ofLength 0 9) [.symbol (Span.ofLength 1 1) "a", .symbol (Span.ofLength 3 5) "b c"],
    .list (Span.ofLength 14 9) [.symbol (Span.ofLength 15 1) "a", .symbol (Span.ofLength 17 5) "b c"]]

/-- The two lists in `twice` are one S-expression, but all six trees are recorded and found. -/
theorem spans_exact_twice : readAll twice = (twiceTrees, none) ∧
    eraseAll twiceTrees = List.replicate 2 (.list [.symbol "a", .symbol "b c"]) ∧
    (partsAll twiceTrees).length = 6 ∧
    (∃ m, register twiceTrees = .ok m ∧ m.entries = (partsAll twiceTrees).map (fun t => (t, t.span)) ∧
      (partsAll twiceTrees).Nodup ∧
      ∀ t ∈ partsAll twiceTrees, ∀ message, m.syntaxError t message = .ok ⟨t.span, message⟩) ∧
    (∀ t ∈ partsAll twiceTrees, Placed twice t) ∧ InOrder twiceTrees := by
  have hread : readAll twice = (twiceTrees, none) := by cbv
  exact ⟨hread, rfl, rfl, spans_exact hread⟩

end STree

end Verdict
