import FiniteAutomata.Proofs.Dot.Labels
import FiniteAutomata.Regex.Glyph

/-!
# Proofs/Dot/Decoding — the automaton behind a description

A line tells what it is by its first characters, and its fields are cut off at characters that do
not occur in them, so the lines of a description can be read back from it
(`Dot.graphText_injective`).  From the lines of an automaton its states can be read if they are named
by numbers, and then its arrows and edges, since a position stands for one state only.
-/

namespace FiniteAutomata

/-- A text is cut at the first of the characters it ends at. -/
theorem Text.eq_of_append_cons_eq {c : Char} {us vs : List Char} : ∀ {xs ys : List Char},
    c ∉ xs → c ∉ ys → xs ++ c :: us = ys ++ c :: vs → xs = ys ∧ us = vs
  | [], [], _, _, h => ⟨rfl, (List.cons.inj h).2⟩
  | [], _ :: _, _, hys, h => absurd (List.mem_cons_self ..) ((List.cons.inj h).1 ▸ hys)
  | _ :: _, [], hxs, _, h => absurd (List.mem_cons_self ..) ((List.cons.inj h).1 ▸ hxs)
  | x :: xs, y :: ys, hxs, hys, h => by
    obtain ⟨hxy, hrest⟩ := List.cons.inj h
    obtain ⟨htext, hafter⟩ := eq_of_append_cons_eq (fun hc => hxs (List.mem_cons_of_mem x hc))
      (fun hc => hys (List.mem_cons_of_mem y hc)) hrest
    exact ⟨congrArg₂ List.cons hxy htext, hafter⟩

namespace Dot

/-! ## One line -/

theorem nodeName_injective {i j : Nat} (h : nodeName i = nodeName j) : i = j :=
  Text.toDigits_ten_injective (List.append_cancel_left h)

theorem notMem_nodeName {id : Nat} {c : Char} (hword : c ∉ "id".toList) (hc : c.isDigit = false) :
    c ∉ nodeName id := by
  rw [nodeName, List.mem_append, not_or]
  exact ⟨hword, Text.notMem_toDigits_ten hc⟩

namespace Statement

/-- The fields of a statement can be cut out of its text. -/
def Plain : Statement → Prop
  | node label _ _ => '"' ∉ label ∧ '\n' ∉ label
  | edge _ _ label => '\n' ∉ label
  | _ => True

/-- What tells the lines apart. -/
def mark : Statement → Option Char
  | startNode => 's'
  | node .. => 'l'
  | startArrow _ => ' '
  | edge .. => none

/-- The mark that a line bears: edges are known by their first character, the others by the sixth. -/
def markOf (text : List Char) : Option Char := if text.head? = some 'i' then none else text[5]?

theorem markOf_text (s : Statement) : markOf s.text = s.mark := by
  cases s <;> rfl

theorem text_edge (source target : Nat) (label : List Char) : (edge source target label).text =
    nodeName source ++ ' ' :: ("-> ".toList ++
      (nodeName target ++ ' ' :: ("[label=\"".toList ++ (label ++ "\"]".toList)))) := by
  have harrow : " -> ".toList = ' ' :: "-> ".toList := rfl
  have hlabel : " [label=\"".toList = ' ' :: "[label=\"".toList := rfl
  unfold text
  rw [harrow, hlabel]
  simp only [List.append_assoc, List.cons_append]

end Statement

/-- What comes after a label tells the shape and the number. -/
theorem afterLabel_injective {a b : Bool} {i j : Nat} (h : afterLabel a i = afterLabel b j) :
    a = b ∧ i = j := by
  -- the shape begins with the ninth character: `c` or `d`
  have hshape : (afterLabel a i)[8]? = (afterLabel b j)[8]? := by rw [h]
  obtain rfl : a = b := by
    cases a with
    | false =>
      cases b with
      | false => rfl
      | true => exact absurd hshape (show ¬some 'c' = some 'd' by decide)
    | true =>
      cases b with
      | false => exact absurd hshape (show ¬some 'd' = some 'c' by decide)
      | true => rfl
  exact ⟨rfl, nodeName_injective (List.append_cancel_left h)⟩

namespace Statement

/-- **A line can be read back.** -/
theorem text_injective {s t : Statement} (hs : s.Plain) (ht : t.Plain) (h : s.text = t.text) :
    s = t := by
  have hmark : s.mark = t.mark := by rw [← markOf_text, ← markOf_text, h]
  cases s with
  | startNode =>
    cases t with
    | startNode => rfl
    | _ => simp [mark] at hmark
  | node label accepting id =>
    cases t with
    | node label' accepting' id' =>
      rw [text_node, text_node, escapeQuotes_of_notMem hs.1, escapeQuotes_of_notMem ht.1] at h
      obtain ⟨hlabel, hafter⟩ :=
        Text.eq_of_append_cons_eq hs.1 ht.1 (List.append_cancel_left h)
      obtain ⟨haccepting, hid⟩ := afterLabel_injective hafter
      rw [hlabel, haccepting, hid]
    | _ => simp [mark] at hmark
  | startArrow id =>
    cases t with
    | startArrow id' => rw [nodeName_injective (List.append_cancel_left h)]
    | _ => simp [mark] at hmark
  | edge source target label =>
    cases t with
    | edge source' target' label' =>
      have hspace : ∀ id, ' ' ∉ nodeName id := fun id => notMem_nodeName (by decide) (by decide)
      rw [text_edge, text_edge] at h
      obtain ⟨hsource, hrest⟩ := Text.eq_of_append_cons_eq (hspace _) (hspace _) h
      obtain ⟨htarget, hlabel⟩ :=
        Text.eq_of_append_cons_eq (hspace _) (hspace _) (List.append_cancel_left hrest)
      rw [nodeName_injective hsource, nodeName_injective htarget,
        List.append_cancel_right (List.append_cancel_left hlabel)]
    | _ => simp [mark] at hmark

/-- A line has no end within. -/
theorem newline_notMem_text {s : Statement} (hs : s.Plain) : '\n' ∉ s.text := by
  have hname : ∀ id, '\n' ∉ nodeName id := fun id => notMem_nodeName (by decide) (by decide)
  cases s with
  | startNode => decide
  | node label accepting id =>
    have hshape : '\n' ∉ (if accepting then "doublecircle" else "circle").toList := by
      cases accepting <;> decide
    have hafter : '\n' ∉ afterLabel accepting id :=
      List.not_mem_append (List.not_mem_append (List.not_mem_append (by decide) hshape)
        (by decide)) (hname id)
    rw [text_node, escapeQuotes_of_notMem hs.1]
    exact List.not_mem_append (by decide) (List.not_mem_append hs.2
      (List.not_mem_cons_of_ne_of_not_mem (by decide) hafter))
  | startArrow id => exact List.not_mem_append (by decide) (hname id)
  | edge source target label =>
    exact List.not_mem_append (List.not_mem_append (List.not_mem_append (List.not_mem_append
      (List.not_mem_append (hname source) (by decide)) (hname target)) (by decide)) hs) (by decide)

/-- Whether a line is that of an edge. -/
def isEdge : Statement → Bool
  | edge .. => true
  | _ => false

end Statement

/-! ## All lines -/

/-- The text of some lines, each with its end. -/
theorem eq_of_flatMap_text_eq : ∀ {ss ts : List Statement}, (∀ s ∈ ss, s.Plain) →
    (∀ t ∈ ts, t.Plain) →
    (ss.flatMap fun s => s.text ++ ['\n']) = (ts.flatMap fun t => t.text ++ ['\n']) → ss = ts
  | [], [], _, _, _ => rfl
  | [], t :: ts, _, _, h => by simp at h
  | s :: ss, [], _, _, h => by simp at h
  | s :: ss, t :: ts, hs, ht, h => by
    have hsplain := hs s (List.mem_cons_self ..)
    have htplain := ht t (List.mem_cons_self ..)
    rw [List.flatMap_cons, List.flatMap_cons, List.append_assoc, List.append_assoc] at h
    obtain ⟨htext, hrest⟩ := Text.eq_of_append_cons_eq (Statement.newline_notMem_text hsplain)
      (Statement.newline_notMem_text htplain) h
    rw [Statement.text_injective hsplain htplain htext,
      eq_of_flatMap_text_eq (fun u hu => hs u (List.mem_cons_of_mem s hu))
        (fun u hu => ht u (List.mem_cons_of_mem t hu)) hrest]

/-- **The lines can be read back from a description.** -/
theorem graphText_injective {ss ts : List Statement} (hs : ∀ s ∈ ss, s.Plain)
    (ht : ∀ t ∈ ts, t.Plain) (h : graphText ss = graphText ts) : ss = ts :=
  eq_of_flatMap_text_eq hs ht (List.append_cancel_left (List.append_cancel_right h))

end Dot

/-! ## States named by numbers -/

/-- A type of states each of which is named by a number of its own. -/
class NamedByNumber (σ : Type) [Named σ] where
  number : σ → Int
  number_injective : ∀ {p q : σ}, number p = number q → p = q
  label_eq : ∀ q : σ, Named.label q = .node (.int (number q)) []

instance : NamedByNumber Nat := ⟨Int.ofNat, Int.ofNat.inj, fun _ => rfl⟩

instance : NamedByNumber Int := ⟨id, id, fun _ => rfl⟩

namespace NamedByNumber

variable {σ : Type} [Named σ] [NamedByNumber σ]

/-- The label is the number in digits. -/
theorem text_label (q : σ) : (Named.label q).text = Text.decimal (number q) := by
  rw [label_eq]
  rfl

theorem text_label_injective {p q : σ} (h : (Named.label p).text = (Named.label q).text) :
    p = q := by
  rw [text_label, text_label] at h
  exact number_injective (Text.decimal_injective h)

end NamedByNumber

namespace Dot

variable {σ : Type} [Ordered σ] [Named σ] [NamedByNumber σ]
  {states states' accepting accepting' : OrdSet σ} {start start' : Option σ}

theorem plain_of_mem_nodes {s : Statement} (hs : s ∈ nodes states accepting start) : s.Plain := by
  rcases mem_nodes.1 hs with ⟨-, rfl⟩ | ⟨q, i, -, rfl | ⟨-, rfl⟩⟩
  · trivial
  · rw [Statement.Plain, NamedByNumber.text_label]
    exact ⟨Text.notMem_decimal (by decide) (by decide), Text.notMem_decimal (by decide) (by decide)⟩
  · trivial

/-- The same nodes stand for the same states. -/
theorem getElem?_of_nodes_eq (h : nodes states accepting start = nodes states' accepting' start')
    {i : Nat} {q : σ} (hq : states.toList[i]? = some q) :
    states'.toList[i]? = some q ∧ accepting.contains q = accepting'.contains q := by
  have hnode : .node (Named.label q).text (accepting.contains q) i ∈
      nodes states' accepting' start' := h ▸ node_mem_nodes.2 ⟨q, hq, rfl, rfl⟩
  obtain ⟨r, hr, hlabel, hfinal⟩ := node_mem_nodes.1 hnode
  obtain rfl := NamedByNumber.text_label_injective hlabel
  exact ⟨hr, hfinal⟩

theorem start_of_nodes_eq (h : nodes states accepting start = nodes states' accepting' start')
    (hstart : ∀ q ∈ start, q ∈ states) {q : σ} (hq : start = some q) : start' = some q := by
  obtain ⟨i, hi⟩ := List.getElem?_of_mem (hstart q hq)
  have harrow : .startArrow i ∈ nodes states' accepting' start' :=
    h ▸ startArrow_mem_nodes.2 ⟨q, hi, hq⟩
  obtain ⟨r, hr, hstart'⟩ := startArrow_mem_nodes.1 harrow
  rw [(getElem?_of_nodes_eq h hi).1] at hr
  exact hstart'.trans hr.symm

/-- **The states, the start and the accepting states can be read from the nodes.** -/
theorem nodes_injective (hstart : ∀ q ∈ start, q ∈ states) (hstart' : ∀ q ∈ start', q ∈ states')
    (haccepting : accepting ⊆ states) (haccepting' : accepting' ⊆ states')
    (h : nodes states accepting start = nodes states' accepting' start') :
    states = states' ∧ start = start' ∧ accepting = accepting' := by
  refine ⟨?_, ?_, ?_⟩
  · refine OrdSet.toList_injective (List.ext_getElem? fun i => Option.ext fun q => ?_)
    exact ⟨fun hq => (getElem?_of_nodes_eq h hq).1, fun hq => (getElem?_of_nodes_eq h.symm hq).1⟩
  · refine Option.ext fun q => ?_
    exact ⟨start_of_nodes_eq h hstart, start_of_nodes_eq h.symm hstart'⟩
  · ext q
    constructor
    · intro hq
      obtain ⟨i, hi⟩ := List.getElem?_of_mem (haccepting q hq)
      rw [← OrdSet.contains_iff, ← (getElem?_of_nodes_eq h hi).2]
      exact OrdSet.contains_iff.2 hq
    · intro hq
      obtain ⟨i, hi⟩ := List.getElem?_of_mem (haccepting' q hq)
      rw [← OrdSet.contains_iff, ← (getElem?_of_nodes_eq h.symm hi).2]
      exact OrdSet.contains_iff.2 hq

end Dot

/-! ## Edges -/

namespace Dot

variable {σ : Type} [Ordered σ]

/-- **What is drawn can be read from the edges**: a position stands for one state only. -/
theorem exists_of_edges_eq {β : Type} {states : OrdSet σ} {xs ys : List β} {p q : β → σ}
    {text : β → List Char} {edges : List Statement}
    (hxs : (xs.mapM fun x => edge? states (p x) (q x) (text x)) = some edges)
    (hys : (ys.mapM fun x => edge? states (p x) (q x) (text x)) = some edges) {x : β}
    (hx : x ∈ xs) : ∃ y ∈ ys, p y = p x ∧ q y = q x ∧ text y = text x := by
  obtain ⟨s, hs⟩ := Option.isSome_iff_exists.1 (isSome_of_mapM hxs hx)
  obtain ⟨y, hy, hsy⟩ := (mem_of_mapM hys).1 ((mem_of_mapM hxs).2 ⟨x, hx, hs⟩)
  obtain ⟨i, j, hi, hj, rfl⟩ := edge?_eq_some.1 hs
  obtain ⟨i', j', hi', hj', hline⟩ := edge?_eq_some.1 hsy
  obtain ⟨rfl, rfl, htext⟩ := Statement.edge.inj hline
  exact ⟨y, hy, OrdSet.position?_injective hi' hi, OrdSet.position?_injective hj' hj, htext⟩

/-- The lines of the nodes are told from those of the edges. -/
theorem eq_of_append_eq {ss ss' ts ts' : List Statement} (hs : ∀ s ∈ ss, s.isEdge = false)
    (hs' : ∀ s ∈ ss', s.isEdge = false) (ht : ∀ t ∈ ts, t.isEdge = true)
    (ht' : ∀ t ∈ ts', t.isEdge = true) (h : ss ++ ts = ss' ++ ts') : ss = ss' ∧ ts = ts' := by
  have hedges : ∀ {us vs : List Statement}, (∀ u ∈ us, u.isEdge = false) →
      (∀ v ∈ vs, v.isEdge = true) → (us ++ vs).filter Statement.isEdge = vs := by
    intro us vs hus hvs
    rw [List.filter_append, List.filter_eq_nil_iff.2 fun u hu => by simp [hus u hu],
      List.filter_eq_self.2 hvs, List.nil_append]
  obtain rfl : ts = ts' := by rw [← hedges hs ht, h, hedges hs' ht']
  exact ⟨List.append_cancel_right h, rfl⟩

theorem isEdge_of_mem_nodes [Named σ] {states accepting : OrdSet σ} {start : Option σ}
    {s : Statement} (hs : s ∈ nodes states accepting start) : s.isEdge = false := by
  rcases mem_nodes.1 hs with ⟨-, rfl⟩ | ⟨q, i, -, rfl | ⟨-, rfl⟩⟩ <;> rfl

theorem isEdge_of_mem_edges {β : Type} {states : OrdSet σ} {xs : List β} {p q : β → σ}
    {text : β → List Char} {edges : List Statement}
    (hedges : (xs.mapM fun x => edge? states (p x) (q x) (text x)) = some edges) {s : Statement}
    (hs : s ∈ edges) : s.isEdge = true := by
  obtain ⟨x, -, i, j, -, -, rfl⟩ := (mem_edges hedges).1 hs
  rfl

/-- A drawing of states and of what joins them. -/
structure Drawn {β : Type} [Named σ] (states accepting : OrdSet σ) (start : Option σ) (xs : List β)
    (p q : β → σ) (text : β → List Char) (lines : List Statement) : Prop where
  start_mem : ∀ s ∈ start, s ∈ states
  accepting_subset : accepting ⊆ states
  newline_notMem : ∀ x ∈ xs, '\n' ∉ text x
  lines_eq : ∃ edges, (xs.mapM fun x => edge? states (p x) (q x) (text x)) = some edges ∧
    nodes states accepting start ++ edges = lines

namespace Drawn

variable {β : Type} [Named σ] [NamedByNumber σ] {states states' accepting accepting' : OrdSet σ}
  {start start' : Option σ} {xs ys : List β} {p q : β → σ} {text : β → List Char}
  {lines lines' : List Statement}

theorem plain (h : Drawn states accepting start xs p q text lines) : ∀ s ∈ lines, s.Plain := by
  obtain ⟨edges, hedges, rfl⟩ := h.lines_eq
  intro s hs
  rcases List.mem_append.1 hs with hs | hs
  · exact plain_of_mem_nodes hs
  · obtain ⟨x, hx, i, j, -, -, rfl⟩ := (mem_edges hedges).1 hs
    exact h.newline_notMem x hx

/-- **A drawing can be read back from its text.** -/
theorem eq_of_text_eq (h : Drawn states accepting start xs p q text lines)
    (h' : Drawn states' accepting' start' ys p q text lines')
    (htext : graphText lines = graphText lines') :
    states = states' ∧ start = start' ∧ accepting = accepting' ∧
      (∀ x ∈ xs, ∃ y ∈ ys, p y = p x ∧ q y = q x ∧ text y = text x) ∧
      ∀ y ∈ ys, ∃ x ∈ xs, p x = p y ∧ q x = q y ∧ text x = text y := by
  obtain rfl := graphText_injective h.plain h'.plain htext
  obtain ⟨edges, hedges, hlines⟩ := h.lines_eq
  obtain ⟨edges', hedges', hlines'⟩ := h'.lines_eq
  obtain ⟨hnodes, rfl⟩ := eq_of_append_eq (fun _ => isEdge_of_mem_nodes)
    (fun _ => isEdge_of_mem_nodes) (fun _ => isEdge_of_mem_edges hedges)
    (fun _ => isEdge_of_mem_edges hedges') (hlines.trans hlines'.symm)
  obtain ⟨rfl, rfl, rfl⟩ := nodes_injective h.start_mem h'.start_mem h.accepting_subset
    h'.accepting_subset hnodes
  exact ⟨rfl, rfl, rfl, fun _ hx => exists_of_edges_eq hedges hedges' hx,
    fun _ hy => exists_of_edges_eq hedges' hedges hy⟩

end Drawn

/-! ## Texts at edges -/

theorem newline_notMem_chars {c : Char} (hc : Regex.isSymbol c) : '\n' ∉ Shown.chars c :=
  fun h => Regex.ne_of_isSymbol hc (by decide) (List.mem_singleton.1 h).symm

theorem newline_notMem_edgeText {a : Option Char} (ha : ∀ c ∈ a, Regex.isSymbol c) :
    '\n' ∉ edgeText a := by
  cases a with
  | none => decide
  | some c => exact newline_notMem_chars (ha c rfl)

theorem chars_injective {c d : Char} (h : Shown.chars c = Shown.chars d) : c = d :=
  List.singleton_inj.1 h

/-- The text at a silent edge is that of no symbol. -/
theorem edgeText_injective {a b : Option Char} (ha : ∀ c ∈ a, Regex.isSymbol c)
    (hb : ∀ c ∈ b, Regex.isSymbol c) (h : edgeText a = edgeText b) : a = b := by
  cases a with
  | none =>
    cases b with
    | none => rfl
    | some d => exact absurd (List.singleton_inj.1 h).symm (Regex.ne_of_isSymbol (hb d rfl) (by decide))
  | some c =>
    cases b with
    | none => exact absurd (List.singleton_inj.1 h) (Regex.ne_of_isSymbol (ha c rfl) (by decide))
    | some d => rw [chars_injective h]

end Dot

/-! ## Automata -/

/-- A symbol at an edge is one of the alphabet. -/
theorem Nfa.Valid.isSymbol_label {σ : Type} [Ordered σ] {n : Nfa σ Char} (hn : n.Valid)
    (hsymbols : ∀ c ∈ n.alphabet, Regex.isSymbol c) {t : Transition σ Char}
    (ht : t ∈ n.transitions) : ∀ c ∈ t.label, Regex.isSymbol c :=
  fun c hc => hsymbols c ((hn.2.1 t ht).2.2 c hc)

/-- Entries are listed by source, then by symbol. -/
theorem Dfa.ascending_entries {σ α : Type} [Ordered σ] [Ordered α] (d : Dfa σ α) :
    Ascending d.entries := by
  refine List.pairwise_flatMap.2 ⟨fun row _ => ?_, d.rows.ascending.imp ?_⟩
  · refine List.pairwise_map.2 (row.2.ascending.imp fun {a b} h => ?_)
    exact Ordering.then_eq_lt.2 (.inr ⟨Ordered.compare_eq_iff.2 rfl, Ordering.then_eq_lt.2 (.inl h)⟩)
  · intro row row' h x hx y hy
    obtain ⟨a, -, rfl⟩ := List.mem_map.1 hx
    obtain ⟨b, -, rfl⟩ := List.mem_map.1 hy
    exact Ordering.then_eq_lt.2 (.inl h)

/-- An edge with the ends and the text of another one is that one. -/
theorem Nfa.mem_transitions_of_exists {σ : Type} [Ordered σ] {n m : Nfa σ Char}
    (hn : ∀ t ∈ n.transitions, ∀ c ∈ t.label, Regex.isSymbol c)
    (hm : ∀ t ∈ m.transitions, ∀ c ∈ t.label, Regex.isSymbol c) {t : Transition σ Char}
    (ht : t ∈ n.transitions) (h : ∃ u ∈ m.transitions.toList, u.source = t.source ∧
      u.target = t.target ∧ Dot.edgeText u.label = Dot.edgeText t.label) : t ∈ m.transitions := by
  obtain ⟨u, hu, hsource, htarget, htext⟩ := h
  have hlabel : u.label = t.label := Dot.edgeText_injective (hm u hu) (hn t ht) htext
  have hut : u = t := by
    cases u
    cases t
    cases hsource
    cases htarget
    cases hlabel
    rfl
  exact hut ▸ hu

/-- An entry with the ends and the text of another one is that one. -/
theorem Dfa.mem_entries_of_exists {σ : Type} [Ordered σ] {d : Dfa σ Char} {x : σ × Char × σ}
    (h : ∃ y ∈ d.entries, y.1 = x.1 ∧ y.2.2 = x.2.2 ∧ Shown.chars y.2.1 = Shown.chars x.2.1) :
    x ∈ d.entries := by
  obtain ⟨y, hy, hsource, htarget, htext⟩ := h
  have hyx : y = x := Prod.ext hsource (Prod.ext (Dot.chars_injective htext) htarget)
  exact hyx ▸ hy

variable {σ : Type} [Ordered σ] [Named σ]

namespace Nfa

variable {n m : Nfa σ Char}

/-- A valid automaton is drawn. -/
theorem Valid.exists_drawn (hn : n.Valid) (hsymbols : ∀ c ∈ n.alphabet, Regex.isSymbol c) :
    ∃ lines, n.dot? = some (String.ofList (Dot.graphText lines)) ∧
      Dot.Drawn n.states n.accepting (some n.start) n.transitions.toList Transition.source
        Transition.target (fun t => Dot.edgeText t.label) lines := by
  obtain ⟨text, htext⟩ := Option.isSome_iff_exists.1 hn.isSome_dot?
  obtain ⟨lines, hlines, rfl⟩ := Option.map_eq_some_iff.1 htext
  refine ⟨lines, htext, ?_, hn.2.2, ?_, statements?_eq_some.1 hlines⟩
  · intro q hq
    obtain rfl := Option.some.inj hq
    exact hn.1
  · exact fun t ht => Dot.newline_notMem_edgeText (hn.isSymbol_label hsymbols ht)

/-- **What the text of a nondeterministic automaton tells.** -/
theorem dot?_eq_iff [NamedByNumber σ] (hn : n.Valid) (hm : m.Valid)
    (hnsymbols : ∀ c ∈ n.alphabet, Regex.isSymbol c)
    (hmsymbols : ∀ c ∈ m.alphabet, Regex.isSymbol c) :
    n.dot? = m.dot? ↔ n.states = m.states ∧ n.start = m.start ∧ n.accepting = m.accepting ∧
      n.transitions = m.transitions := by
  constructor
  · intro h
    obtain ⟨lines, hdot, hlines⟩ := hn.exists_drawn hnsymbols
    obtain ⟨lines', hdot', hlines'⟩ := hm.exists_drawn hmsymbols
    have htext : Dot.graphText lines = Dot.graphText lines' := by
      rw [hdot, hdot'] at h
      exact String.ofList_injective (Option.some.inj h)
    obtain ⟨hstates, hstart, haccepting, hedges, hedges'⟩ := hlines.eq_of_text_eq hlines' htext
    have hnlabel := fun t (ht : t ∈ n.transitions) => hn.isSymbol_label hnsymbols ht
    have hmlabel := fun t (ht : t ∈ m.transitions) => hm.isSymbol_label hmsymbols ht
    refine ⟨hstates, Option.some.inj hstart, haccepting, OrdSet.ext fun t => ⟨?_, ?_⟩⟩
    · exact fun ht => mem_transitions_of_exists hnlabel hmlabel ht (hedges t ht)
    · exact fun ht => mem_transitions_of_exists hmlabel hnlabel ht (hedges' t ht)
  · rintro ⟨hstates, hstart, haccepting, htransitions⟩
    rw [dot?, dot?, statements?, statements?, hstates, hstart, haccepting, htransitions]

end Nfa

namespace Dfa

variable {d e : Dfa σ Char}

/-- A valid automaton is drawn. -/
theorem Valid.exists_drawn (hd : d.Valid) (hsymbols : ∀ c ∈ d.alphabet, Regex.isSymbol c) :
    ∃ lines, d.dot? = some (String.ofList (Dot.graphText lines)) ∧
      Dot.Drawn d.states d.accepting d.start d.entries (fun x => x.1) (fun x => x.2.2)
        (fun x => Shown.chars x.2.1) lines := by
  obtain ⟨text, htext⟩ := Option.isSome_iff_exists.1 hd.isSome_dot?
  obtain ⟨lines, hlines, rfl⟩ := Option.map_eq_some_iff.1 htext
  refine ⟨lines, htext, hd.1, hd.2.2, fun x hx => ?_, statements?_eq_some.1 hlines⟩
  exact Dot.newline_notMem_chars (hsymbols _ (hd.step (step_eq_some.2 hx)).2.1)

/-- **What the text of a deterministic automaton tells.** -/
theorem dot?_eq_iff [NamedByNumber σ] (hd : d.Valid) (he : e.Valid)
    (hdsymbols : ∀ c ∈ d.alphabet, Regex.isSymbol c)
    (hesymbols : ∀ c ∈ e.alphabet, Regex.isSymbol c) :
    d.dot? = e.dot? ↔ d.states = e.states ∧ d.start = e.start ∧ d.accepting = e.accepting ∧
      ∀ x, x ∈ d.entries ↔ x ∈ e.entries := by
  constructor
  · intro h
    obtain ⟨lines, hdot, hlines⟩ := hd.exists_drawn hdsymbols
    obtain ⟨lines', hdot', hlines'⟩ := he.exists_drawn hesymbols
    have htext : Dot.graphText lines = Dot.graphText lines' := by
      rw [hdot, hdot'] at h
      exact String.ofList_injective (Option.some.inj h)
    obtain ⟨hstates, hstart, haccepting, hedges, hedges'⟩ := hlines.eq_of_text_eq hlines' htext
    refine ⟨hstates, hstart, haccepting, fun x => ⟨?_, ?_⟩⟩
    · exact fun hx => mem_entries_of_exists (hedges x hx)
    · exact fun hx => mem_entries_of_exists (hedges' x hx)
  · rintro ⟨hstates, hstart, haccepting, hentries⟩
    have hlists : d.entries = e.entries :=
      d.ascending_entries.eq_of_mem_iff e.ascending_entries hentries
    rw [dot?, dot?, statements?, statements?, hstates, hstart, haccepting, hlists]

end Dfa

/-- **A description determines its automaton** up to the alphabet and rows without entries, if the
states are named by numbers and the symbols are those of expressions. -/
theorem descriptions_determine_automata {σ : Type} [Ordered σ] [Named σ] [NamedByNumber σ] :
    (∀ n m : Nfa σ Char, n.Valid → m.Valid → (∀ c ∈ n.alphabet, Regex.isSymbol c) →
      (∀ c ∈ m.alphabet, Regex.isSymbol c) → ∃ s t, n.dot? = some s ∧ m.dot? = some t ∧
        (s = t ↔ n.states = m.states ∧ n.start = m.start ∧ n.accepting = m.accepting ∧
          n.transitions = m.transitions)) ∧
    ∀ d e : Dfa σ Char, d.Valid → e.Valid → (∀ c ∈ d.alphabet, Regex.isSymbol c) →
      (∀ c ∈ e.alphabet, Regex.isSymbol c) → ∃ s t, d.dot? = some s ∧ e.dot? = some t ∧
        (s = t ↔ d.states = e.states ∧ d.start = e.start ∧ d.accepting = e.accepting ∧
          ∀ x, x ∈ d.entries ↔ x ∈ e.entries) := by
  constructor
  · intro n m hn hm hnsymbols hmsymbols
    obtain ⟨s, hs⟩ := Option.isSome_iff_exists.1 hn.isSome_dot?
    obtain ⟨t, ht⟩ := Option.isSome_iff_exists.1 hm.isSome_dot?
    have hiff := Nfa.dot?_eq_iff hn hm hnsymbols hmsymbols
    rw [hs, ht, Option.some.injEq] at hiff
    exact ⟨s, t, hs, ht, hiff⟩
  · intro d e hd he hdsymbols hesymbols
    obtain ⟨s, hs⟩ := Option.isSome_iff_exists.1 hd.isSome_dot?
    obtain ⟨t, ht⟩ := Option.isSome_iff_exists.1 he.isSome_dot?
    have hiff := Dfa.dot?_eq_iff hd he hdsymbols hesymbols
    rw [hs, ht, Option.some.injEq] at hiff
    exact ⟨s, t, hs, ht, hiff⟩

/-- A loop at the start and a silent edge. -/
def loop (alphabet : OrdSet Char) (start : Int) : Nfa Int Char where
  states := .ofList [-1, 2]
  alphabet := alphabet
  start := start
  transitions := .ofList [.reading 2 2 'a', .silent 2 (-1)]
  accepting := {-1}

/-- From `10` to `0`, if a row says so. -/
def halting (rows : OrdMap Nat (OrdMap Char Nat)) : Dfa Nat Char where
  states := .ofList [0, 10]
  alphabet := .ofList ['a']
  start := some 10
  rows := rows
  accepting := {0}

/-- Another symbol and a row without entries are not told; another start is. -/
theorem descriptions_of_loops :
    (∃ s t, (loop (.ofList ['a']) 2).dot? = some s ∧ (loop (.ofList ['a', 'b']) 2).dot? = some t ∧
      s = t) ∧
    (∃ s t, (loop (.ofList ['a']) 2).dot? = some s ∧ (loop (.ofList ['a']) (-1)).dot? = some t ∧
      s ≠ t) ∧
    ∃ s t, (halting (.ofList [(10, .ofList [('a', 0)])])).dot? = some s ∧
      (halting (.ofList [(0, ∅), (10, .ofList [('a', 0)])])).dot? = some t ∧ s = t := by
  have hsymbols : ∀ c ∈ OrdSet.ofList ['a'], Regex.isSymbol c := by
    intro c hc
    obtain rfl := List.mem_singleton.1 (OrdSet.mem_ofList.1 hc)
    rfl
  have hvalid : (loop (.ofList ['a']) 2).Valid := by decide +kernel
  refine ⟨?_, ?_, ?_⟩
  · have hsymbols' : ∀ c ∈ OrdSet.ofList ['a', 'b'], Regex.isSymbol c := by
      intro c hc
      rcases List.mem_cons.1 (OrdSet.mem_ofList.1 hc) with rfl | hc
      · rfl
      · obtain rfl := List.mem_singleton.1 hc
        rfl
    have hvalid' : (loop (.ofList ['a', 'b']) 2).Valid := by decide +kernel
    obtain ⟨s, t, hs, ht, hiff⟩ := descriptions_determine_automata.1 (loop (.ofList ['a']) 2)
      (loop (.ofList ['a', 'b']) 2) hvalid hvalid' hsymbols hsymbols'
    exact ⟨s, t, hs, ht, hiff.2 ⟨rfl, rfl, rfl, rfl⟩⟩
  · have hvalid' : (loop (.ofList ['a']) (-1)).Valid := by decide +kernel
    obtain ⟨s, t, hs, ht, hiff⟩ := descriptions_determine_automata.1 (loop (.ofList ['a']) 2)
      (loop (.ofList ['a']) (-1)) hvalid hvalid' hsymbols hsymbols
    exact ⟨s, t, hs, ht, fun h => absurd (hiff.1 h).2.1 (by decide)⟩
  · have hvalid : (halting (.ofList [(10, .ofList [('a', 0)])])).Valid := by decide +kernel
    have hvalid' : (halting (.ofList [(0, ∅), (10, .ofList [('a', 0)])])).Valid := by
      decide +kernel
    obtain ⟨s, t, hs, ht, hiff⟩ := descriptions_determine_automata.2
      (halting (.ofList [(10, .ofList [('a', 0)])]))
      (halting (.ofList [(0, ∅), (10, .ofList [('a', 0)])]))
      hvalid hvalid' hsymbols hsymbols
    exact ⟨s, t, hs, ht, hiff.2 ⟨rfl, rfl, rfl, fun x => Iff.rfl⟩⟩

end FiniteAutomata
