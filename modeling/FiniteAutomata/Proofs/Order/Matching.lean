import FiniteAutomata.OrdSet.Numbering
import FiniteAutomata.OrdSet.Powerset
import FiniteAutomata.Saturation
import Mathlib.Data.List.Forall2
import Mathlib.Logic.Relation

/-!
# Proofs/Order/Matching — the same order under other names

A relation between two ordered types keeps the order (`KeepsOrder`) if related elements compare
alike; it is then one to one.  Two sets are matched (`OrdSet.Matched`) if every element of each is
related to one of the other.  Related elements of matched sets have the same number
(`number?_eq`), so what is said in numbers does not depend on the names.  Orders are kept through
optional elements, pairs and sets.
-/

/-! ## Related optional elements -/

section Option

variable {σ τ σ' τ' : Type} {R R' : σ → τ → Prop} {S : σ' → τ' → Prop} {x : Option σ} {y : Option τ}

theorem Option.Rel.flip (h : Option.Rel R x y) : Option.Rel (fun i p => R p i) y x := by
  cases h with
  | none => exact .none
  | some h => exact .some h

theorem Option.Rel.imp (hR : ∀ {p i}, R p i → R' p i) (h : Option.Rel R x y) :
    Option.Rel R' x y := by
  cases h with
  | none => exact .none
  | some h => exact .some (hR h)

theorem Option.Rel.bind {f : σ → Option σ'} {g : τ → Option τ'} (h : Option.Rel R x y)
    (hfg : ∀ {p i}, R p i → Option.Rel S (f p) (g i)) : Option.Rel S (x.bind f) (y.bind g) := by
  cases h with
  | none => exact .none
  | some h => exact hfg h

/-- What is there is related to something. -/
theorem Option.Rel.exists_eq_some {p : σ} (h : Option.Rel R (Option.some p) y) :
    ∃ i, y = Option.some i ∧ R p i := by
  cases h with
  | some h => exact ⟨_, rfl, h⟩

end Option

namespace FiniteAutomata

variable {σ τ ρ σ' τ' : Type} [Ordered σ] [Ordered τ] [Ordered ρ] [Ordered σ'] [Ordered τ']

/-- Related elements compare alike. -/
def KeepsOrder (R : σ → τ → Prop) : Prop :=
  ∀ ⦃p q : σ⦄ ⦃i j : τ⦄, R p i → R q j → compare p q = compare i j

/-- Larger elements of the set have larger images. -/
def IncreasingOn (f : σ → τ) (s : OrdSet σ) : Prop :=
  ∀ p ∈ s, ∀ q ∈ s, compare p q = .lt → compare (f p) (f q) = .lt

instance (f : σ → τ) (s : OrdSet σ) : Decidable (IncreasingOn f s) :=
  inferInstanceAs (Decidable (∀ p ∈ s, ∀ q ∈ s, _))

/-- Every element of each set is related to one of the other. -/
def OrdSet.Matched (R : σ → τ → Prop) (s : OrdSet σ) (t : OrdSet τ) : Prop :=
  (∀ p ∈ s, ∃ i ∈ t, R p i) ∧ ∀ i ∈ t, ∃ p ∈ s, R p i

/-- Only elements of the two sets are related. -/
def OrdSet.Within (R : σ → τ → Prop) (s : OrdSet σ) (t : OrdSet τ) : Prop :=
  ∀ ⦃p : σ⦄ ⦃i : τ⦄, R p i → p ∈ s ∧ i ∈ t

theorem OrdSet.Matched.flip {R : σ → τ → Prop} {s : OrdSet σ} {t : OrdSet τ}
    (h : OrdSet.Matched R s t) : OrdSet.Matched (fun i p => R p i) t s := ⟨h.2, h.1⟩

namespace KeepsOrder

variable {R : σ → τ → Prop} {S : σ' → τ' → Prop}

theorem flip (hR : KeepsOrder R) : KeepsOrder fun i p => R p i := fun _ _ _ _ h h' => (hR h h').symm

theorem comp {T : τ → ρ → Prop} (hR : KeepsOrder R) (hT : KeepsOrder T) :
    KeepsOrder (Relation.Comp R T) := by
  rintro p q i j ⟨x, hpx, hxi⟩ ⟨y, hqy, hyj⟩
  rw [hR hpx hqy, hT hxi hyj]

/-- **A relation that keeps the order is one to one.** -/
theorem eq_iff (hR : KeepsOrder R) {p q : σ} {i j : τ} (hp : R p i) (hq : R q j) :
    p = q ↔ i = j := by
  rw [← Ordered.compare_eq_iff, hR hp hq, Ordered.compare_eq_iff]

/-- It is enough that nothing is related to two elements and that smaller elements are related to
smaller ones. -/
theorem of_lt (hone : ∀ {p i j}, R p i → R p j → i = j)
    (hlt : ∀ {p q i j}, R p i → R q j → compare p q = .lt → compare i j = .lt) : KeepsOrder R := by
  intro p q i j hp hq
  rcases Ordered.lt_or_eq_or_gt p q with h | rfl | h
  · rw [h, hlt hp hq h]
  · rw [hone hp hq, Ordered.compare_eq_iff.2 rfl, Ordered.compare_eq_iff.2 rfl]
  · rw [Ordered.compare_gt_iff.2 h, Ordered.compare_gt_iff.2 (hlt hq hp h)]

/-- A function that is increasing on a set keeps the order there. -/
theorem of_increasingOn {f : σ → τ} {s : OrdSet σ} (hf : IncreasingOn f s) :
    KeepsOrder fun p i => p ∈ s ∧ f p = i := by
  refine of_lt ?_ ?_
  · rintro p i j ⟨-, rfl⟩ ⟨-, rfl⟩
    rfl
  · rintro p q i j ⟨hp, rfl⟩ ⟨hq, rfl⟩
    exact hf p hp q hq

/-! ## Optional elements and pairs -/

/-- Nothing comes before everything, on both sides. -/
theorem option (hR : KeepsOrder R) : KeepsOrder (Option.Rel R) := by
  intro p q i j hp hq
  cases hp with
  | none => cases hq with
    | none => rfl
    | some => rfl
  | some hp => cases hq with
    | none => rfl
    | some hq => exact hR hp hq

theorem pair (hR : KeepsOrder R) (hS : KeepsOrder S) :
    KeepsOrder fun (p : σ × σ') (i : τ × τ') => R p.1 i.1 ∧ S p.2 i.2 := by
  intro p q i j hp hq
  rw [Ordered.compare_pair, Ordered.compare_pair, hR hp.1 hq.1, hS hp.2 hq.2]

/-! ## Sets -/

/-- **Ascending lists with related members are related place by place.** -/
theorem forall₂ (hR : KeepsOrder R) : ∀ {ps : List σ} {is : List τ}, Ascending ps → Ascending is →
    (∀ p ∈ ps, ∃ i ∈ is, R p i) → (∀ i ∈ is, ∃ p ∈ ps, R p i) → List.Forall₂ R ps is
  | [], [], _, _, _, _ => .nil
  | [], i :: _, _, _, _, hback => by
    obtain ⟨_, hp, _⟩ := hback i (List.mem_cons_self ..)
    exact absurd hp List.not_mem_nil
  | p :: _, [], _, _, hforth, _ => by
    obtain ⟨_, hi, _⟩ := hforth p (List.mem_cons_self ..)
    exact absurd hi List.not_mem_nil
  | p :: ps, i :: is, hps, his, hforth, hback => by
    obtain ⟨hp, hps⟩ := List.pairwise_cons.1 hps
    obtain ⟨hi, his⟩ := List.pairwise_cons.1 his
    have hpi : R p i := by
      obtain ⟨j, hj, hpj⟩ := hforth p (List.mem_cons_self ..)
      obtain ⟨q, hq, hqi⟩ := hback i (List.mem_cons_self ..)
      rcases List.mem_cons.1 hj with rfl | hj
      · exact hpj
      rcases List.mem_cons.1 hq with rfl | hq
      · exact hqi
      -- the first elements would be related crosswise
      · exact absurd ((hR hpj hqi).symm.trans (hp q hq)) (Ordered.lt_asymm (hi j hj))
    refine .cons hpi (hR.forall₂ hps his (fun q hq => ?_) fun j hj => ?_)
    · obtain ⟨j, hj, hqj⟩ := hforth q (List.mem_cons_of_mem p hq)
      refine ⟨j, (List.mem_cons.1 hj).resolve_left ?_, hqj⟩
      rintro rfl
      exact Ordered.ne_of_lt (hp q hq) ((hR.eq_iff hpi hqj).2 rfl)
    · obtain ⟨q, hq, hqj⟩ := hback j (List.mem_cons_of_mem i hj)
      refine ⟨q, (List.mem_cons.1 hq).resolve_left ?_, hqj⟩
      rintro rfl
      exact Ordered.ne_of_lt (hi j hj) ((hR.eq_iff hpi hqj).1 rfl)

variable {s : OrdSet σ} {t : OrdSet τ}

theorem forall₂_toList (hR : KeepsOrder R) (h : OrdSet.Matched R s t) :
    List.Forall₂ R s.toList t.toList := hR.forall₂ s.ascending t.ascending h.1 h.2

/-- Lists that are related place by place compare alike. -/
theorem compare_eq_of_forall₂ (hR : KeepsOrder R) {ps qs : List σ} {is js : List τ}
    (hp : List.Forall₂ R ps is) (hq : List.Forall₂ R qs js) : compare ps qs = compare is js := by
  induction hp generalizing qs js with
  | nil => cases hq with
    | nil => rfl
    | cons => rfl
  | cons hpi _ ih => cases hq with
    | nil => rfl
    | cons hqj hq => rw [List.compare_cons_cons, List.compare_cons_cons, hR hpi hqj, ih hq]

/-- Matched sets compare alike. -/
theorem set (hR : KeepsOrder R) : KeepsOrder (OrdSet.Matched R) :=
  fun _ _ _ _ hs ht => hR.compare_eq_of_forall₂ (hR.forall₂_toList hs) (hR.forall₂_toList ht)

/-! ## Numbers -/

theorem size_eq (hR : KeepsOrder R) (h : OrdSet.Matched R s t) : s.size = t.size :=
  (hR.forall₂_toList h).length_eq

/-- Related elements stand at the same places of lists that are related place by place. -/
theorem getElem?_eq_some_iff (hR : KeepsOrder R) {ps : List σ} {is : List τ}
    (h : List.Forall₂ R ps is) {p : σ} {i : τ} (hpi : R p i) (k : Nat) :
    ps[k]? = some p ↔ is[k]? = some i := by
  induction h generalizing k with
  | nil => exact iff_of_false nofun nofun
  | cons hqj _ ih => cases k with
    | zero => simpa using hR.eq_iff hqj hpi
    | succ k => simpa using ih k

/-- **Related elements of matched sets have the same number**, or neither has one. -/
theorem number?_eq (hR : KeepsOrder R) (h : OrdSet.Matched R s t) {p : σ} {i : τ} (hpi : R p i) :
    s.number? p = t.number? i := by
  ext k
  simp only [OrdSet.number?_eq_some, hR.getElem?_eq_some_iff (hR.forall₂_toList h) hpi]

/-- An element with a number is related to one with the same number. -/
theorem exists_number?_eq (hR : KeepsOrder R) (h : OrdSet.Matched R s t) {p : σ} {k : Nat}
    (hp : s.number? p = some k) : ∃ i, R p i ∧ t.number? i = some k := by
  obtain ⟨i, -, hpi⟩ := h.1 p (OrdSet.mem_of_number? hp)
  exact ⟨i, hpi, (hR.number?_eq h hpi).symm.trans hp⟩

/-- Numbering a set keeps its order. -/
theorem number (s : OrdSet σ) : KeepsOrder fun p i => s.number? p = some i :=
  of_lt (fun hi hj => Option.some.inj (hi.symm.trans hj)) fun hi hj hlt =>
    Nat.compare_eq_lt.2 (OrdSet.number?_lt hi hj hlt)

end KeepsOrder

/-! ## Relations within sets -/

namespace OrdSet.Within

variable {R : σ → τ → Prop} {S : σ' → τ' → Prop} {s : OrdSet σ} {t : OrdSet τ} {s' : OrdSet σ'}
  {t' : OrdSet τ'}

/-- Related elements are both in their sets. -/
theorem mem_iff (h : Within R s t) {p : σ} {i : τ} (hpi : R p i) : p ∈ s ↔ i ∈ t :=
  iff_of_true (h hpi).1 (h hpi).2

/-- Matched sets are subsets. -/
theorem powerset (h : Within R s t) : Within (Matched R) s.powerset t.powerset := by
  intro u v huv
  refine ⟨mem_powerset.2 fun p hp => ?_, mem_powerset.2 fun i hi => ?_⟩
  · obtain ⟨i, -, hpi⟩ := huv.1 p hp
    exact (h hpi).1
  · obtain ⟨p, -, hpi⟩ := huv.2 i hi
    exact (h hpi).2

theorem product (h : Within R s t) (h' : Within S s' t') :
    Within (fun p i => R p.1 i.1 ∧ S p.2 i.2) (s.product s') (t.product t') := by
  intro p i hpi
  obtain ⟨hp, hi⟩ := h hpi.1
  obtain ⟨hp', hi'⟩ := h' hpi.2
  exact ⟨mem_product.2 ⟨hp, hp'⟩, mem_product.2 ⟨hi, hi'⟩⟩

end OrdSet.Within

/-! ## Closures -/

/-- What is reached on one side is related to what is reached on the other, if the starts are
related and so are the successors of related elements. -/
theorem Successors.exists_mem_closure {g : Successors σ} {g' : Successors τ} {R : σ → τ → Prop}
    {s : OrdSet σ} {t : OrdSet τ} (hstart : ∀ p ∈ s, ∃ i ∈ t, R p i)
    (hnext : ∀ {p i}, R p i → ∀ q ∈ g.next p, ∃ j ∈ g'.next i, R q j) :
    ∀ p ∈ g.closure s, ∃ i ∈ g'.closure t, R p i := by
  refine closure_induction (fun p hp => ?_) fun p hp q hq => ?_
  · obtain ⟨i, hi, hpi⟩ := hstart p hp
    exact ⟨i, subset_closure _ _ i hi, hpi⟩
  · obtain ⟨i, hi, hpi⟩ := hp
    obtain ⟨j, hj, hqj⟩ := hnext hpi q hq
    exact ⟨j, closure_closed _ _ hi hj, hqj⟩

/-- **Closures of matched sets are matched**, if related elements have related successors. -/
theorem OrdSet.Matched.closure {g : Successors σ} {g' : Successors τ} {R : σ → τ → Prop}
    {s : OrdSet σ} {t : OrdSet τ} (h : OrdSet.Matched R s t)
    (hforth : ∀ {p i}, R p i → ∀ q ∈ g.next p, ∃ j ∈ g'.next i, R q j)
    (hback : ∀ {p i}, R p i → ∀ j ∈ g'.next i, ∃ q ∈ g.next p, R q j) :
    OrdSet.Matched R (g.closure s) (g'.closure t) :=
  ⟨Successors.exists_mem_closure h.1 hforth, Successors.exists_mem_closure h.2 hback⟩

end FiniteAutomata
