import FiniteAutomata.Proofs.Dot.Drawing
import FiniteAutomata.Proofs.Text.Digits

/-!
# Proofs/Dot/Labels — where the label of a node ends

A reader of a quoted text is inside it, right after a backslash, or past its end (`Dot.Place`), so
what it makes of a text can be told piece by piece (`Dot.Leads`).  The texts in the label of a state
are quoted already, and the backslash that marks a double quote in one of them does not keep it from
being marked a second time: the two backslashes mark each other, and the quote closes the label
(`Label.leads_text`).  Every other character leaves the reader where it was, so a label ends where
it should exactly if none of its texts holds a double quote; and it never ends later.
-/

namespace FiniteAutomata

namespace Dot

/-! ## Reading along -/

/-- Where a reader of a quoted text is. -/
inductive Place
  | inside
  /-- Right after a backslash. -/
  | marked
  | past

namespace Place

/-- One more character. -/
def next : Place → Char → Place
  | inside, c => if c = '"' then past else if c = '\\' then marked else inside
  | marked, _ => inside
  | past, _ => past

/-- The place after a text. -/
def after (p : Place) (text : List Char) : Place := text.foldl next p

theorem after_append (p : Place) (t u : List Char) : p.after (t ++ u) = (p.after t).after u :=
  List.foldl_append

/-- Past the end nothing is read. -/
theorem after_past : ∀ text : List Char, past.after text = past
  | [] => rfl
  | _ :: text => after_past text

end Place

/-- From inside, a text leads past the end if `closes`, and inside again if not. -/
def Leads (text : List Char) (closes : Bool) : Prop :=
  Place.inside.after text = if closes then .past else .inside

/-- The first text that closes is where the reader stops. -/
theorem Leads.append {t u : List Char} {a b : Bool} (ht : Leads t a) (hu : Leads u b) :
    Leads (t ++ u) (a || b) := by
  rw [Leads, Place.after_append, ht]
  cases a with
  | false => exact hu
  | true => exact Place.after_past u

/-- A character other than the double quote and the backslash leaves the reader inside. -/
theorem leads_of_plain : ∀ {text : List Char}, (∀ c ∈ text, c ≠ '"' ∧ c ≠ '\\') → Leads text false
  | [], _ => rfl
  | c :: text, h => by
    obtain ⟨hquote, hbackslash⟩ := h c (List.mem_cons_self ..)
    have hc : Place.inside.next c = .inside := by
      rw [Place.next, if_neg hquote, if_neg hbackslash]
    show (Place.inside.next c).after text = _
    rw [hc]
    exact leads_of_plain fun d hd => h d (List.mem_cons_of_mem c hd)

/-- If a text leads anywhere, a backslash in front of it marks the character after it. -/
theorem Leads.of_cons {c : Char} {text : List Char} {closes : Bool} (hquote : c ≠ '"')
    (hmarked : ∀ d rest, c = '\\' → text = d :: rest → False) (h : Leads (c :: text) closes) :
    c ≠ '\\' ∧ Leads text closes := by
  have hbackslash : c ≠ '\\' := by
    rintro rfl
    cases text with
    | nil => cases closes <;> cases h
    | cons d text => exact hmarked d text rfl rfl
  refine ⟨hbackslash, ?_⟩
  rwa [Leads, Place.after, List.foldl_cons, Place.next, if_neg hquote, if_neg hbackslash] at h

/-- **A text that leads inside again is read to its end.** -/
theorem readQuoted_of_leads {text : List Char} (h : Leads text false) (rest : List Char) :
    readQuoted (text ++ '"' :: rest) = some (text, rest) := by
  induction text using readQuoted.induct with
  | case1 => rfl
  | case2 text => exact nomatch (Place.after_past text).symm.trans h
  | case3 c text ih =>
    have htext : Leads text false := h
    rw [List.cons_append, List.cons_append, readQuoted, ih htext]
    rfl
  | case4 c text hquote hmarked ih =>
    obtain ⟨hbackslash, htext⟩ := h.of_cons hquote hmarked
    rw [List.cons_append, readQuoted, ih htext]
    · rfl
    · exact hquote
    · exact fun _ _ he => absurd he hbackslash

/-- **A text that leads past the end is not**: the reader stops at a double quote in it. -/
theorem exists_readQuoted_of_leads {text : List Char} (h : Leads text true) :
    ∃ read left, text = read ++ '"' :: left ∧
      ∀ rest, readQuoted (text ++ rest) = some (read, left ++ rest) := by
  induction text using readQuoted.induct with
  | case1 => exact nomatch h
  | case2 text => exact ⟨[], text, rfl, fun _ => rfl⟩
  | case3 c text ih =>
    have htext : Leads text true := h
    obtain ⟨read, left, rfl, hread⟩ := ih htext
    refine ⟨'\\' :: c :: read, left, rfl, fun rest => ?_⟩
    rw [List.cons_append, List.cons_append, readQuoted, hread]
    rfl
  | case4 c text hquote hmarked ih =>
    obtain ⟨hbackslash, htext⟩ := h.of_cons hquote hmarked
    obtain ⟨read, left, rfl, hread⟩ := ih htext
    refine ⟨c :: read, left, rfl, fun rest => ?_⟩
    rw [List.cons_append, readQuoted, hread]
    · rfl
    · exact hquote
    · exact fun _ _ he => absurd he hbackslash

/-! ## Marking double quotes -/

theorem escapeQuotes_append (t u : List Char) :
    escapeQuotes (t ++ u) = escapeQuotes t ++ escapeQuotes u := List.flatMap_append

/-- Nothing is marked in a text without double quotes. -/
theorem escapeQuotes_of_notMem : ∀ {text : List Char}, '"' ∉ text → escapeQuotes text = text
  | [], _ => rfl
  | c :: text, h => by
    have hc : c ≠ '"' := fun he => h (he ▸ List.mem_cons_self ..)
    rw [escapeQuotes, List.flatMap_cons, if_neg hc]
    exact congrArg (c :: ·) (escapeQuotes_of_notMem fun hquote => h (List.mem_cons_of_mem c hquote))

theorem leads_escapeQuotes_of_plain {text : List Char} (h : ∀ c ∈ text, c ≠ '"' ∧ c ≠ '\\') :
    Leads (escapeQuotes text) false := by
  rw [escapeQuotes_of_notMem fun hquote => (h _ hquote).1 rfl]
  exact leads_of_plain h

/-! ## Labels -/

/-- A backslash and the character it marks, if that is no double quote. -/
theorem leads_marked {c : Char} (hc : c ≠ '"') : Leads (escapeQuotes ['\\', c]) false := by
  rw [escapeQuotes_of_notMem (by simp [hc.symm])]
  rfl

/-- **A character of a quoted text closes the label** exactly if it is a double quote. -/
theorem leads_escape (c : Char) : Leads (escapeQuotes (Text.escape c)) (c == '"') := by
  by_cases hquote : c = '"'
  · subst hquote
    rfl
  rw [beq_eq_false_iff_ne.2 hquote, Text.escape]
  split
  · exact leads_marked hquote
  split
  · exact leads_marked (by decide)
  split
  · exact leads_marked (by decide)
  split
  · exact leads_marked (by decide)
  split
  · exact leads_marked (by decide)
  split
  · have hdigits : Leads (escapeQuotes (Nat.toDigits 16 c.toNat)) false :=
      leads_escapeQuotes_of_plain fun d hd => Text.ne_of_mem_toDigits (by decide) hd
    have hopen : Leads (escapeQuotes "\\u\x7b".toList) false := rfl
    have hclose : Leads (escapeQuotes "\x7d".toList) false := rfl
    rw [Text.escapeCode, escapeQuotes_append, escapeQuotes_append]
    exact (hopen.append hdigits).append hclose
  · next hspecial _ _ _ _ _ =>
    refine leads_escapeQuotes_of_plain fun d hd => ?_
    rw [List.mem_singleton.1 hd]
    exact not_or.1 hspecial

theorem leads_quoted (text : List Char) :
    Leads (escapeQuotes (Text.quoted text)) (text.contains '"') := by
  have htext : Leads (escapeQuotes (text.flatMap Text.escape)) (text.contains '"') := by
    induction text with
    | nil => rfl
    | cons c text ih =>
      rw [List.flatMap_cons, escapeQuotes_append, List.contains_cons, Bool.beq_comm]
      exact (leads_escape c).append ih
  have hmark : Leads (escapeQuotes ['"']) false := rfl
  have hquoted := (hmark.append htext).append hmark
  rw [Bool.false_or, Bool.or_false, ← escapeQuotes_append, ← escapeQuotes_append] at hquoted
  exact hquoted

end Dot

/-- The text that a head is. -/
def Head.strings : Head → List String
  | text s => [s]
  | _ => []

namespace Label

mutual

/-- The texts in a label. -/
def strings : Label → List String
  | node h args => h.strings ++ stringsOf args

/-- The texts in several labels. -/
def stringsOf : List Label → List String
  | [] => []
  | a :: as => strings a ++ stringsOf as

end

end Label

/-- Whether a double quote is in one of some texts. -/
def Text.anyQuote (ss : List String) : Bool := ss.any (·.toList.contains '"')

theorem Text.anyQuote_append (ss ts : List String) :
    anyQuote (ss ++ ts) = (anyQuote ss || anyQuote ts) := List.any_append

theorem Text.anyQuote_eq_false {ss : List String} :
    anyQuote ss = false ↔ ∀ s ∈ ss, '"' ∉ s.toList := by
  simp [anyQuote]

namespace Dot

theorem leads_word (h : Head) : Leads (escapeQuotes h.word) (Text.anyQuote h.strings) := by
  cases h with
  | text s =>
    rw [Head.strings, Text.anyQuote, List.any_cons, List.any_nil, Bool.or_false]
    exact leads_quoted s.toList
  | int i =>
    cases i with
    | ofNat n => exact leads_escapeQuotes_of_plain fun c hc => Text.ne_of_mem_toDigits (by decide) hc
    | negSucc n =>
      have hdigits : Leads (escapeQuotes (Nat.toDigits 10 (n + 1))) false :=
        leads_escapeQuotes_of_plain fun c hc => Text.ne_of_mem_toDigits (by decide) hc
      have hsign : Leads (escapeQuotes ['-']) false := rfl
      exact hsign.append hdigits
  | bool b => cases b <;> rfl
  | _ => rfl

/-- Brackets around arguments change nothing. -/
theorem leads_bracketed {opening closing : Char} {text : List Char} {closes : Bool}
    (hopening : Leads (escapeQuotes [opening]) false)
    (hclosing : Leads (escapeQuotes [closing]) false) (h : Leads (escapeQuotes text) closes) :
    Leads (escapeQuotes (opening :: text ++ [closing])) closes := by
  have hall := (hopening.append h).append hclosing
  rw [Bool.false_or, Bool.or_false, ← escapeQuotes_append, ← escapeQuotes_append] at hall
  exact hall

/-- A head closes the label if its own text does or its arguments do. -/
theorem leads_apply (h : Head) {args : List (List Char)} {closes : Bool}
    (hargs : Leads (escapeQuotes ([',', ' '].intercalate args)) closes) :
    Leads (escapeQuotes (h.apply args)) (Text.anyQuote h.strings || closes) := by
  have hround : Leads (escapeQuotes ('(' :: [',', ' '].intercalate args ++ [')'])) closes :=
    leads_bracketed rfl rfl hargs
  have hcurly : Leads (escapeQuotes ('\x7b' :: [',', ' '].intercalate args ++ ['\x7d'])) closes :=
    leads_bracketed rfl rfl hargs
  have hword : Leads
      (escapeQuotes (if args.isEmpty then h.word
        else h.word ++ '(' :: [',', ' '].intercalate args ++ [')']))
      (Text.anyQuote h.strings || closes) := by
    cases args with
    | nil =>
      have hcloses : closes = false := by
        cases closes with
        | false => rfl
        | true => exact nomatch hargs
      rw [hcloses, Bool.or_false]
      exact leads_word h
    | cons a args =>
      rw [List.isEmpty_cons, if_neg Bool.false_ne_true, List.append_assoc, escapeQuotes_append]
      exact (leads_word h).append hround
  cases h with
  | pair => exact hround
  | set => exact hcurly
  | _ => exact hword

end Dot

namespace Label

open Dot

mutual

/-- **A label closes** exactly if a double quote is in one of its texts. -/
theorem leads_text : ∀ a : Label, Leads (escapeQuotes a.text) (Text.anyQuote a.strings)
  | node h args => by
    rw [text, strings, Text.anyQuote_append]
    exact leads_apply h (leads_texts args)

/-- The same for several labels, with commas between them. -/
theorem leads_texts : ∀ as : List Label,
    Leads (escapeQuotes ([',', ' '].intercalate (texts as))) (Text.anyQuote (stringsOf as))
  | [] => rfl
  | [a] => by
    rw [texts, texts, stringsOf, stringsOf, List.append_nil, List.intercalate_singleton]
    exact leads_text a
  | a :: b :: as => by
    have hcomma : Leads (escapeQuotes [',', ' ']) false := rfl
    have hothers := hcomma.append (leads_texts (b :: as))
    rw [texts, texts, stringsOf, List.intercalate_cons_cons, escapeQuotes_append,
      escapeQuotes_append, Text.anyQuote_append, List.append_assoc]
    exact (leads_text a).append hothers

end

end Label

namespace Dot

/-! ## The lines of nodes -/

/-- What the line of a node begins with. -/
def labelStart : List Char := "node[label=\"".toList

/-- What comes after the label of a node. -/
def afterLabel (accepting : Bool) (id : Nat) : List Char :=
  ", shape=".toList ++ (if accepting then "doublecircle" else "circle").toList ++ "] ".toList ++
    nodeName id

/-- The label stands between two double quotes. -/
theorem text_node (label : List Char) (accepting : Bool) (id : Nat) :
    (Statement.node label accepting id).text =
      labelStart ++ (escapeQuotes label ++ '"' :: afterLabel accepting id) := by
  have hquote : "\", shape=".toList = '"' :: ", shape=".toList := rfl
  unfold Statement.text labelStart afterLabel
  rw [hquote]
  simp only [List.append_assoc, List.cons_append]

variable {σ α : Type} [Ordered σ] [Named σ] [Ordered α] [Shown α]

/-- The line of a node has the label of a state between two double quotes, and a reader takes the
second of them for the end of the label exactly if no text in the label holds one; otherwise the
label ends earlier, at a double quote of its own. -/
def LabelEnds (states : OrdSet σ) (label : List Char) (accepting : Bool) (id : Nat) : Prop :=
  ∃ q ∈ states, label = (Named.label q).text ∧
    (Statement.node label accepting id).text =
      labelStart ++ (escapeQuotes label ++ '"' :: afterLabel accepting id) ∧
    ((readQuoted (escapeQuotes label ++ '"' :: afterLabel accepting id) =
        some (escapeQuotes label, afterLabel accepting id)) ↔
      ∀ s ∈ (Named.label q).strings, '"' ∉ s.toList) ∧
    ((∃ s ∈ (Named.label q).strings, '"' ∈ s.toList) →
      ∃ read left, escapeQuotes label = read ++ '"' :: left ∧
        readQuoted (escapeQuotes label ++ '"' :: afterLabel accepting id) =
          some (read, left ++ '"' :: afterLabel accepting id))

theorem labelEnds_of_mem {states : OrdSet σ} {q : σ} (hq : q ∈ states) (accepting : Bool)
    (id : Nat) : LabelEnds states (Named.label q).text accepting id := by
  have hleads := (Named.label q).leads_text
  refine ⟨q, hq, rfl, text_node _ _ _, ?_⟩
  cases hquote : Text.anyQuote (Named.label q).strings with
  | false =>
    rw [hquote] at hleads
    have hnone := Text.anyQuote_eq_false.1 hquote
    refine ⟨iff_of_true (readQuoted_of_leads hleads _) hnone, ?_⟩
    rintro ⟨s, hs, hmem⟩
    exact absurd hmem (hnone s hs)
  | true =>
    rw [hquote] at hleads
    obtain ⟨read, left, htext, hread⟩ := exists_readQuoted_of_leads hleads
    refine ⟨iff_of_false ?_ ?_, fun _ => ⟨read, left, htext, hread _⟩⟩
    · -- what is read is shorter than the label
      rw [hread]
      intro h
      have hlength : read.length = (escapeQuotes (Named.label q).text).length :=
        congrArg List.length (Prod.mk.inj (Option.some.inj h)).1
      rw [htext, List.length_append, List.length_cons] at hlength
      omega
    · intro hnone
      rw [Text.anyQuote_eq_false.2 hnone] at hquote
      cases hquote

/-- Among the lines of an automaton only the nodes of its states are nodes. -/
theorem labelEnds_of_mem_append {states accepting : OrdSet σ} {start : Option σ}
    {edges : List Statement} (hedges : ∀ label final id, .node label final id ∉ edges)
    {label : List Char} {final : Bool} {id : Nat}
    (h : .node label final id ∈ nodes states accepting start ++ edges) :
    LabelEnds states label final id := by
  obtain ⟨q, hq, rfl, rfl⟩ :=
    node_mem_nodes.1 ((List.mem_append.1 h).resolve_right (hedges _ _ _))
  exact labelEnds_of_mem (List.mem_of_getElem? hq) _ id

end Dot

/-- **Where the labels of the nodes end**, in the lines of a valid automaton. -/
theorem node_labels_end {σ α : Type} [Ordered σ] [Named σ] [Ordered α] [Shown α] :
    (∀ n : Nfa σ α, n.Valid → ∃ lines, n.statements? = some lines ∧
      ∀ label accepting id, .node label accepting id ∈ lines →
        Dot.LabelEnds n.states label accepting id) ∧
    ∀ d : Dfa σ α, d.Valid → ∃ lines, d.statements? = some lines ∧
      ∀ label accepting id, .node label accepting id ∈ lines →
        Dot.LabelEnds d.states label accepting id := by
  constructor
  · intro n hn
    have hdot := hn.isSome_dot?
    rw [Nfa.dot?, Option.isSome_map] at hdot
    obtain ⟨lines, hlines⟩ := Option.isSome_iff_exists.1 hdot
    refine ⟨lines, hlines, fun label accepting id h => ?_⟩
    obtain ⟨edges, hedges, rfl⟩ := Nfa.statements?_eq_some.1 hlines
    exact Dot.labelEnds_of_mem_append (fun _ _ _ => Dot.node_notMem_edges hedges) h
  · intro d hd
    have hdot := hd.isSome_dot?
    rw [Dfa.dot?, Option.isSome_map] at hdot
    obtain ⟨lines, hlines⟩ := Option.isSome_iff_exists.1 hdot
    refine ⟨lines, hlines, fun label accepting id h => ?_⟩
    obtain ⟨edges, hedges, rfl⟩ := Dfa.statements?_eq_some.1 hlines
    exact Dot.labelEnds_of_mem_append (fun _ _ _ => Dot.node_notMem_edges hedges) h

/-- From a double quote to a backslash. -/
def marks : Nfa String Char where
  states := .ofList ["\"", "\\"]
  alphabet := .ofList ['a']
  start := "\""
  transitions := .ofList [.reading "\"" "\\" 'a']
  accepting := {"\\"}

/-- A backslash, wrapped, on its own. -/
def wrapped : Dfa (Option String) Char where
  states := .ofList [some "\\"]
  alphabet := ∅
  start := some "\\"
  rows := ∅
  accepting := ∅

/-- The double quote closes its label, the backslashes do not. -/
theorem labels_of_marks : marks.Valid ∧ wrapped.Valid ∧
    (∃ lines, marks.statements? = some lines ∧ ∀ label accepting id,
      .node label accepting id ∈ lines → Dot.LabelEnds marks.states label accepting id) ∧
    ∃ lines, wrapped.statements? = some lines ∧ ∀ label accepting id,
      .node label accepting id ∈ lines → Dot.LabelEnds wrapped.states label accepting id := by
  have hmarks : marks.Valid := by decide
  have hwrapped : wrapped.Valid := by decide
  exact ⟨hmarks, hwrapped, node_labels_end.1 marks hmarks, node_labels_end.2 wrapped hwrapped⟩

/-- **Not every label ends where the line means it to.** -/
theorem quote_closes_label : ¬∀ n : Nfa String Char, n.Valid →
    ∀ lines, n.statements? = some lines →
      ∀ label accepting id, .node label accepting id ∈ lines →
        Dot.readQuoted (Dot.escapeQuotes label ++ '"' :: Dot.afterLabel accepting id) =
          some (Dot.escapeQuotes label, Dot.afterLabel accepting id) := by
  intro h
  have hlines : marks.statements? = some [.startNode, .node "\"\\\"\"".toList false 0,
      .startArrow 0, .node "\"\\\\\"".toList true 1, .edge 0 1 ['a']] := by decide +kernel
  have hread := h marks (by decide) _ hlines _ _ _ (.tail _ (.head _))
  exact absurd hread (by decide +kernel)

end FiniteAutomata
