import FiniteAutomata.Regex.Language

/-!
# Regex/Marked — matching a word by marks on the expression

While a word is read, each symbol of the expression that may have been read last bears a mark.
Reading one more symbol moves the marks on, in one pass over the expression, and the word is
accepted if a mark stands where the expression may end.

What the marks leave to be read is a language (`Continues`), and a step takes one symbol off it
(`continues_read`); so the words that are accepted are those that the expression denotes
(`accepts_iff`).
-/

namespace FiniteAutomata.Regex

variable {α : Type}

/-! ## Marks -/

/-- The expression with no mark on it. -/
def unmarked (r : Regex α) : Regex (α × Bool) := r.map fun c => (c, false)

/-- The expression under the marks. -/
def plain (m : Regex (α × Bool)) : Regex α := m.map Prod.fst

@[simp] theorem plain_unmarked (r : Regex α) : r.unmarked.plain = r :=
  (map_map ..).trans (map_id r)

theorem plain_concat (l r : Regex (α × Bool)) :
    (concat l r).plain = .concat l.plain r.plain := rfl

theorem plain_union (l r : Regex (α × Bool)) : (union l r).plain = .union l.plain r.plain := rfl

theorem plain_star (r : Regex (α × Bool)) : (star r).plain = .star r.plain := rfl

/-- Marks make no expression nullable. -/
theorem isNullable_iff_plain {m : Regex (α × Bool)} : m.isNullable ↔ Denotes m.plain [] := by
  rw [← isNullable_iff, plain, isNullable_map]

/-- Whether some mark stands where the expression may end. -/
def isDone : Regex (α × Bool) → Bool
  | empty | epsilon => false
  | symbol (_, mark) => mark
  | concat l r => r.isDone || (r.isNullable && l.isDone)
  | union l r => l.isDone || r.isDone
  | star r => r.isDone

/-- Moves the marks on over the symbol `c`; with `start`, the expression may begin here too. -/
def read [DecidableEq α] (c : α) (start : Bool) : Regex (α × Bool) → Regex (α × Bool)
  | empty => empty
  | epsilon => epsilon
  | symbol (d, _) => symbol (d, start && c == d)
  | concat l r => concat (l.read c start) (r.read c (l.isDone || (start && l.isNullable)))
  | union l r => union (l.read c start) (r.read c start)
  | star r => star (r.read c (start || r.isDone))

/-- Whether a word is in the language of the expression. -/
def accepts [DecidableEq α] (r : Regex α) : List α → Bool
  | [] => r.isNullable
  | c :: w => (w.foldl (fun m d => m.read d false) (r.unmarked.read c true)).isDone

/-! ## What the marks leave to be read -/

/-- The word `w` leads from some mark to the end of the expression. -/
def Continues : Regex (α × Bool) → List α → Prop
  | empty, _ | epsilon, _ => False
  | symbol (_, mark), w => mark ∧ w = []
  | concat l r, w => (∃ u v, w = u ++ v ∧ l.Continues u ∧ Denotes r.plain v) ∨ r.Continues w
  | union l r, w => l.Continues w ∨ r.Continues w
  | star r, w => ∃ u v, w = u ++ v ∧ r.Continues u ∧ Denotes (star r.plain) v

/-- Without marks nothing is left. -/
theorem not_continues_unmarked : ∀ (r : Regex α) (w : List α), ¬r.unmarked.Continues w
  | empty, _ | epsilon, _ => id
  | symbol _, _ => fun h => Bool.false_ne_true h.1
  | concat l r, _ => fun
    | .inl ⟨u, _, _, hu, _⟩ => not_continues_unmarked l u hu
    | .inr h => not_continues_unmarked r _ h
  | union l r, _ => fun
    | .inl h => not_continues_unmarked l _ h
    | .inr h => not_continues_unmarked r _ h
  | star r, _ => fun ⟨u, _, _, hu, _⟩ => not_continues_unmarked r u hu

/-- The marked expression may end here if the empty word is left. -/
theorem isDone_iff : ∀ m : Regex (α × Bool), m.isDone ↔ m.Continues []
  | empty | epsilon => by simp [isDone, Continues]
  | symbol (_, _) => by simp [isDone, Continues]
  | concat l r => by
    simp only [isDone, Continues, Bool.or_eq_true, Bool.and_eq_true, isDone_iff l, isDone_iff r,
      isNullable_iff_plain, List.nil_eq, List.append_eq_nil_iff]
    constructor
    · rintro (h | ⟨hr, hl⟩)
      · exact .inr h
      · exact .inl ⟨[], [], ⟨rfl, rfl⟩, hl, hr⟩
    · rintro (⟨_, _, ⟨rfl, rfl⟩, hl, hr⟩ | h)
      · exact .inr ⟨hr, hl⟩
      · exact .inl h
  | union l r => by simp only [isDone, Continues, Bool.or_eq_true, isDone_iff l, isDone_iff r]
  | star r => by
    simp only [isDone, Continues, isDone_iff r, List.nil_eq, List.append_eq_nil_iff]
    constructor
    · exact fun h => ⟨[], [], ⟨rfl, rfl⟩, h, .done⟩
    · rintro ⟨_, _, ⟨rfl, rfl⟩, h, _⟩
      exact h

/-- A step changes nothing but the marks. -/
@[simp] theorem plain_read [DecidableEq α] (c : α) :
    ∀ (start : Bool) (m : Regex (α × Bool)), (m.read c start).plain = m.plain
  | _, empty | _, epsilon | _, symbol (_, _) => rfl
  | start, concat l r => by simp only [read, plain_concat, plain_read c start l, plain_read c _ r]
  | start, union l r => by simp only [read, plain_union, plain_read c start l, plain_read c _ r]
  | _, star r => congrArg star (plain_read c _ r)

/-- The first of two parts of a word that is not empty takes the first symbol, or is empty. -/
theorem exists_cons_eq_append {P Q : List α → Prop} {c : α} {w : List α} :
    (∃ u v, c :: w = u ++ v ∧ P u ∧ Q v) ↔
      (P [] ∧ Q (c :: w)) ∨ ∃ u v, w = u ++ v ∧ P (c :: u) ∧ Q v := by
  constructor
  · rintro ⟨u | ⟨d, u⟩, v, hw, hu, hv⟩
    · exact .inl ⟨hu, by rwa [hw]⟩
    · obtain ⟨rfl, rfl⟩ := List.cons.inj hw
      exact .inr ⟨u, v, rfl, hu, hv⟩
  · rintro (⟨hu, hv⟩ | ⟨u, v, rfl, hu, hv⟩)
    · exact ⟨[], c :: w, rfl, hu, hv⟩
    · exact ⟨c :: u, v, rfl, hu, hv⟩

/-- **A step takes one symbol off** what the marks, or the expression itself, leave to be read. -/
theorem continues_read [DecidableEq α] (c : α) :
    ∀ (start : Bool) (m : Regex (α × Bool)) (w : List α),
      (m.read c start).Continues w ↔ m.Continues (c :: w) ∨ (start ∧ Denotes m.plain (c :: w))
  | _, empty, _ => by simp [read, Continues, plain, map, denotes_empty]
  | _, epsilon, _ => by simp [read, Continues, plain, map, denotes_epsilon]
  | start, symbol (d, _), w => by
    simp [read, Continues, plain, map, denotes_symbol, and_assoc]
  | start, concat l r, w => by
    simp only [read, Continues, plain_read, continues_read c _ l, continues_read c _ r,
      plain_concat, denotes_concat, exists_cons_eq_append, Bool.or_eq_true, Bool.and_eq_true,
      isDone_iff, isNullable_iff_plain]
    grind
  | start, union l r, w => by
    simp only [read, Continues, continues_read c _ l, continues_read c _ r, plain_union,
      denotes_union]
    grind
  | start, star r, w => by
    simp only [read, Continues, plain_read, continues_read c _ r, plain_star, denotes_star_cons,
      exists_cons_eq_append, Bool.or_eq_true, isDone_iff]
    grind

/-- Reading the rest of a word from the marks. -/
theorem isDone_foldl_read [DecidableEq α] : ∀ (w : List α) (m : Regex (α × Bool)),
    (w.foldl (fun m d => m.read d false) m).isDone ↔ m.Continues w
  | [], m => isDone_iff m
  | c :: w, m => by
    rw [List.foldl_cons, isDone_foldl_read w, continues_read]
    simp

/-- **A word is accepted exactly if the expression denotes it.** -/
theorem accepts_iff [DecidableEq α] (r : Regex α) : ∀ w : List α, r.accepts w ↔ Denotes r w
  | [] => isNullable_iff
  | c :: w => by
    rw [accepts, isDone_foldl_read, continues_read, plain_unmarked]
    simp [not_continues_unmarked]

end FiniteAutomata.Regex
