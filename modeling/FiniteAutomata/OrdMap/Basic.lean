import FiniteAutomata.OrdSet.Basic
import FiniteAutomata.Traversal

/-!
# OrdMap/Basic — finite tables stored by strictly ascending key

A table is the list of its entries in ascending key order, one per key, so two tables with the
same look-ups are the same value (`OrdMap.ext`).  Beside the list stands the array of the same
entries, in which a key is found by halving.  `ofKeys` fills in a value for every element of a
set; `ofList` keeps the last of several entries with one key.
-/

namespace FiniteAutomata

/-- A finite table, as the list of its entries by strictly ascending key. -/
structure OrdMap (κ ν : Type) [Ordered κ] where
  entries : List (κ × ν)
  ascending : entries.Pairwise fun a b => compare a.1 b.1 = .lt
  /-- The entries once more, for searching. -/
  index : Array (κ × ν) := entries.toArray
  index_eq : index = entries.toArray := by rfl

namespace OrdMap

variable {κ ν κ' ν' : Type} [Ordered κ] [Ordered κ']

theorem entries_injective : ∀ {m m' : OrdMap κ ν}, m.entries = m'.entries → m = m'
  | ⟨_, _, _, rfl⟩, ⟨_, _, _, rfl⟩, rfl => rfl

instance [DecidableEq ν] : DecidableEq (OrdMap κ ν) := fun m m' =>
  decidable_of_iff (m.entries = m'.entries) ⟨entries_injective, congrArg entries⟩

/-! ## Looking up -/

/-- The place of the entry for a key. -/
def position? (m : OrdMap κ ν) (k : κ) : Option Nat := search (fun e => compare k e.1) m.index

/-- The value at a key. -/
def get? (m : OrdMap κ ν) (k : κ) : Option ν :=
  (m.position? k).bind fun i => m.index[i]?.map Prod.snd

theorem sided_index (m : OrdMap κ ν) (k : κ) : Sided (fun e => compare k e.1) m.index.toList := by
  rw [m.index_eq]
  exact List.pairwise_map.1 (Ascending.sided (List.pairwise_map.2 m.ascending) k)

/-- **The value at a key is the one its entry holds.** -/
theorem get?_eq_some {m : OrdMap κ ν} {k : κ} {v : ν} :
    m.get? k = some v ↔ (k, v) ∈ m.entries := by
  have hmem : (k, v) ∈ m.entries ↔ ∃ i : Nat, m.index[i]? = some (k, v) := by
    rw [m.index_eq, List.mem_iff_getElem?]
    simp
  simp only [get?, position?, Option.bind_eq_some_iff,
    search_eq_some (m.sided_index k), Option.map_eq_some_iff, hmem]
  constructor
  · rintro ⟨i, ⟨⟨k', v'⟩, he, hk⟩, ⟨k'', v''⟩, he', rfl⟩
    obtain ⟨rfl, rfl⟩ := Prod.mk.inj (Option.some.inj (he.symm.trans he'))
    exact ⟨i, Ordered.compare_eq_iff.1 hk ▸ he⟩
  · rintro ⟨i, he⟩
    exact ⟨i, ⟨(k, v), he, Ordered.compare_eq_iff.2 rfl⟩, (k, v), he, rfl⟩

/-- The keys with an entry. -/
def keys (m : OrdMap κ ν) : OrdSet κ :=
  .ofAscending (m.entries.map Prod.fst) (List.pairwise_map.2 m.ascending)

@[simp] theorem mem_keys {m : OrdMap κ ν} {k : κ} : k ∈ m.keys ↔ (m.get? k).isSome := by
  rw [Option.isSome_iff_exists, OrdSet.mem_def, keys]
  simp [get?_eq_some]

/-! ## Building tables -/

/-- The table whose entries are listed by ascending key. -/
def ofAscending (es : List (κ × ν)) (h : es.Pairwise fun a b => compare a.1 b.1 = .lt) :
    OrdMap κ ν :=
  { entries := es, ascending := h }

/-- The table without entries. -/
def empty : OrdMap κ ν := ofAscending [] .nil

instance : EmptyCollection (OrdMap κ ν) := ⟨empty⟩

@[simp] theorem get?_empty {k : κ} : (∅ : OrdMap κ ν).get? k = none := rfl

instance : Inhabited (OrdMap κ ν) := ⟨∅⟩

/-- Puts an entry at its place, unless the key has one already. -/
def place (k : κ) (v : ν) : List (κ × ν) → List (κ × ν)
  | [] => [(k, v)]
  | (k', v') :: es =>
    match compare k k' with
    | .lt => (k, v) :: (k', v') :: es
    | .eq => (k', v') :: es
    | .gt => (k', v') :: place k v es

theorem fst_of_mem_place {k : κ} {v : ν} {e : κ × ν} :
    ∀ {es : List (κ × ν)}, e ∈ place k v es → e = (k, v) ∨ e ∈ es
  | [], h => .inl (List.mem_singleton.1 h)
  | (k', v') :: es, h => by
    rw [place] at h
    split at h
    · exact List.mem_cons.1 h
    · exact .inr h
    · rcases List.mem_cons.1 h with rfl | h
      · exact .inr (List.mem_cons_self ..)
      · exact (fst_of_mem_place h).imp_right (List.mem_cons_of_mem _)

theorem pairwise_place {k : κ} {v : ν} : ∀ {es : List (κ × ν)},
    es.Pairwise (fun a b => compare a.1 b.1 = .lt) →
    (place k v es).Pairwise fun a b => compare a.1 b.1 = .lt
  | [], _ => List.pairwise_singleton ..
  | (k', v') :: es, h => by
    have h' := List.pairwise_cons.1 h
    rw [place]
    split
    · next hk =>
      refine List.pairwise_cons.2 ⟨fun e he => ?_, h⟩
      rcases List.mem_cons.1 he with rfl | he
      · exact hk
      · exact Ordered.lt_trans hk (h'.1 e he)
    · exact h
    · next hk =>
      refine List.pairwise_cons.2 ⟨fun e he => ?_, pairwise_place h'.2⟩
      rcases fst_of_mem_place he with rfl | he
      · exact Ordered.compare_gt_iff.1 hk
      · exact h'.1 e he

/-- Puts every entry at its place, unless an entry further on has its key. -/
def placeAll (es : List (κ × ν)) : List (κ × ν) := es.foldr (fun e es => place e.1 e.2 es) []

theorem pairwise_placeAll : ∀ {es : List (κ × ν)},
    (placeAll es).Pairwise fun a b => compare a.1 b.1 = .lt
  | [] => .nil
  | _ :: _ => pairwise_place pairwise_placeAll

/-- An entry before all others is placed in front. -/
theorem place_of_lt {k : κ} {v : ν} : ∀ {es : List (κ × ν)},
    (∀ e ∈ es, compare k e.1 = .lt) → place k v es = (k, v) :: es
  | [], _ => rfl
  | e :: es, h => by rw [place, h e (List.mem_cons_self ..)]

theorem placeAll_of_pairwise {es : List (κ × ν)}
    (h : es.Pairwise fun a b => compare a.1 b.1 = .lt) : placeAll es = es := by
  induction h with
  | nil => rfl
  | @cons e es he _ ih =>
    have hplace : placeAll (e :: es) = place e.1 e.2 (placeAll es) := rfl
    rw [hplace, ih, place_of_lt he]

/-- The table of a list of entries; of several entries with one key the last counts. -/
def ofList (es : List (κ × ν)) : OrdMap κ ν := ofAscending (placeAll es) pairwise_placeAll

/-- **Ascending entries are taken as they are.** -/
theorem get?_ofList_of_pairwise {es : List (κ × ν)}
    (h : es.Pairwise fun a b => compare a.1 b.1 = .lt) {k : κ} {v : ν} :
    (ofList es).get? k = some v ↔ (k, v) ∈ es := by
  have hentries : (ofList es).entries = es := placeAll_of_pairwise h
  rw [get?_eq_some, hentries]

/-- The table that holds `f k` at each element `k` of a set. -/
def ofKeys (s : OrdSet κ) (f : κ → ν) : OrdMap κ ν :=
  ofAscending (s.toList.map fun k => (k, f k)) (List.pairwise_map.2 s.ascending)

theorem get?_ofKeys_eq_some {s : OrdSet κ} {f : κ → ν} {k : κ} {v : ν} :
    (ofKeys s f).get? k = some v ↔ k ∈ s ∧ f k = v := by
  rw [get?_eq_some, ofKeys, ofAscending]
  simp only [List.mem_map, Prod.mk.injEq]
  exact ⟨fun ⟨_, hm, hk, hv⟩ => hk ▸ ⟨hm, hv⟩, fun ⟨hm, hv⟩ => ⟨k, hm, rfl, hv⟩⟩

theorem get?_ofKeys (s : OrdSet κ) (f : κ → ν) (k : κ) :
    (ofKeys s f).get? k = if k ∈ s then some (f k) else none := by
  ext v
  rw [get?_ofKeys_eq_some]
  simp

/-- The table of rows that are given in pieces: all pieces of a row are put together, in order. -/
def ofPieces (pieces : List (κ × List (κ' × ν))) : OrdMap κ (OrdMap κ' ν) :=
  ofKeys (.ofList (pieces.map Prod.fst)) fun k =>
    ofList ((pieces.filter fun piece => compare piece.1 k == .eq).flatMap Prod.snd)

/-- Renames keys and replaces values. -/
def map (f : κ → κ') (g : ν → ν') (m : OrdMap κ ν) : OrdMap κ' ν' :=
  ofList (m.entries.map fun e => (f e.1, g e.2))

/-- Replaces every value, if every value has a replacement. -/
def traverse? (g : ν → Option ν') (m : OrdMap κ ν) : Option (OrdMap κ ν') :=
  (m.entries.mapM fun e => (g e.2).map (e.1, ·)).map ofList

/-- The values of a replaced table are the replacements. -/
theorem get?_traverse? {g : ν → Option ν'} {m : OrdMap κ ν} {m' : OrdMap κ ν'}
    (h : m.traverse? g = some m') {k : κ} {v' : ν'} :
    m'.get? k = some v' ↔ ∃ v, m.get? k = some v ∧ g v = some v' := by
  obtain ⟨es, hes, rfl⟩ := Option.map_eq_some_iff.1 h
  have hasc : es.Pairwise fun a b => compare a.1 b.1 = .lt := by
    refine pairwise_of_mapM (fun {e e' f f'} hlt he he' => ?_) m.ascending hes
    obtain ⟨_, _, rfl⟩ := Option.map_eq_some_iff.1 he
    obtain ⟨_, _, rfl⟩ := Option.map_eq_some_iff.1 he'
    exact hlt
  simp only [get?_ofList_of_pairwise hasc, mem_of_mapM hes, get?_eq_some, Option.map_eq_some_iff,
    Prod.mk.injEq]
  refine ⟨fun ⟨⟨_, v⟩, he, _, hv, hk, hv'⟩ => ?_, fun ⟨v, he, hv⟩ => ⟨(k, v), he, v', hv, rfl, rfl⟩⟩
  subst hk hv'
  exact ⟨v, he, hv⟩

theorem get?_traverse?_eq_bind {g : ν → Option ν'} {m : OrdMap κ ν} {m' : OrdMap κ ν'}
    (h : m.traverse? g = some m') (k : κ) : m'.get? k = (m.get? k).bind g := by
  ext v'
  rw [get?_traverse? h, Option.bind_eq_some_iff]

/-- **A table is replaced exactly if every value has a replacement.** -/
theorem isSome_traverse? {g : ν → Option ν'} {m : OrdMap κ ν} :
    (m.traverse? g).isSome ↔ ∀ k v, m.get? k = some v → (g v).isSome := by
  rw [traverse?, Option.isSome_map, isSome_mapM_iff]
  simp only [Option.isSome_map, get?_eq_some, Prod.forall]

/-! ## Tables with the same look-ups -/

/-- **A table is determined by its look-ups.** -/
@[ext] theorem ext {m m' : OrdMap κ ν} (h : ∀ k, m.get? k = m'.get? k) : m = m' := by
  refine entries_injective (eq_of_pairwise_of_mem_iff (fun _ _ => Ordered.lt_asymm) m.ascending
    m'.ascending fun ⟨k, v⟩ => ?_)
  rw [← get?_eq_some, ← get?_eq_some, h k]

end OrdMap

end FiniteAutomata
