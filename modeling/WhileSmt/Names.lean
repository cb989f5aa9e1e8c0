/-!
Sets and maps of names in increasing order. Names are compared by code point, which is also the
order of their UTF-8 bytes, so every listing of names has one fixed order.

Main statements: a map answers the last value written for a name (`NameMap.get?_insert`), and its
names are strictly increasing (`NameMap.sorted`).
-/

namespace WhileSmt

/-! ## Sorted lists of names -/

/-- Puts a name into an increasing list, once. -/
def insertName (x : String) : List String → List String
  | [] => [x]
  | y :: ys =>
    if x < y then x :: y :: ys
    else if x = y then y :: ys
    else y :: insertName x ys

/-- The distinct names of a list in increasing order. -/
def sortNames (names : List String) : List String :=
  names.foldr insertName []

theorem mem_insertName {x y : String} {ys : List String} :
    x ∈ insertName y ys ↔ x = y ∨ x ∈ ys := by
  induction ys with
  | nil => simp [insertName]
  | cons z zs ih =>
    unfold insertName
    split
    · simp
    · split
      · next h => subst h; simp
      · simp only [List.mem_cons, ih]
        constructor
        · rintro (h | h | h) <;> simp [h]
        · rintro (h | h | h) <;> simp [h]

@[simp] theorem mem_sortNames {x : String} {names : List String} :
    x ∈ sortNames names ↔ x ∈ names := by
  induction names with
  | nil => simp [sortNames]
  | cons y ys ih =>
    have h : sortNames (y :: ys) = insertName y (sortNames ys) := rfl
    rw [h, mem_insertName, ih, List.mem_cons]

/-- Of two names neither of which is smaller, each is the other. -/
theorem eq_of_not_lt {x y : String} (h : ¬ x < y) (h' : ¬ y < x) : x = y :=
  String.le_antisymm (String.not_lt.mp h') (String.not_lt.mp h)

theorem ne_of_gt_name {x y : String} (h : y < x) : x ≠ y := by
  rintro rfl
  exact String.lt_irrefl _ h

theorem pairwise_insertName {x : String} {ys : List String} (h : ys.Pairwise (· < ·)) :
    (insertName x ys).Pairwise (· < ·) := by
  induction ys with
  | nil => simp [insertName]
  | cons y ys ih =>
    obtain ⟨hy, hys⟩ := List.pairwise_cons.mp h
    unfold insertName
    split
    · next hxy =>
      refine List.pairwise_cons.mpr ⟨?_, h⟩
      intro z hz
      rcases List.mem_cons.mp hz with rfl | hz
      · exact hxy
      · exact String.lt_trans hxy (hy z hz)
    · next hxy =>
      split
      · exact h
      · next hne =>
        refine List.pairwise_cons.mpr ⟨?_, ih hys⟩
        intro z hz
        rcases mem_insertName.mp hz with rfl | hz
        · exact Classical.byContradiction fun hyz => hne (eq_of_not_lt hxy hyz)
        · exact hy z hz

theorem pairwise_sortNames (names : List String) : (sortNames names).Pairwise (· < ·) := by
  induction names with
  | nil => exact List.Pairwise.nil
  | cons y ys ih => exact pairwise_insertName ih

/-! ## Maps from names -/

/-- Writes a value for a name into an association list with increasing names. -/
def insertEntry {α : Type} (x : String) (a : α) : List (String × α) → List (String × α)
  | [] => [(x, a)]
  | (y, b) :: rest =>
    if x < y then (x, a) :: (y, b) :: rest
    else if x = y then (y, a) :: rest
    else (y, b) :: insertEntry x a rest

theorem fst_mem_insertEntry {α : Type} {x : String} {a : α} {entries : List (String × α)}
    {p : String × α} (h : p ∈ insertEntry x a entries) : p.1 = x ∨ ∃ q ∈ entries, q.1 = p.1 := by
  induction entries with
  | nil =>
    simp only [insertEntry, List.mem_singleton] at h
    exact .inl (by rw [h])
  | cons q rest ih =>
    obtain ⟨y, b⟩ := q
    unfold insertEntry at h
    split at h
    · rcases List.mem_cons.mp h with rfl | h
      · exact .inl rfl
      · exact .inr ⟨p, h, rfl⟩
    · split at h
      · next hxy =>
        rcases List.mem_cons.mp h with rfl | h
        · exact .inl hxy.symm
        · exact .inr ⟨p, List.mem_cons_of_mem _ h, rfl⟩
      · rcases List.mem_cons.mp h with rfl | h
        · exact .inr ⟨(y, b), List.mem_cons_self, rfl⟩
        · rcases ih h with hp | ⟨q, hq, hqp⟩
          · exact .inl hp
          · exact .inr ⟨q, List.mem_cons_of_mem _ hq, hqp⟩

theorem pairwise_insertEntry {α : Type} {x : String} {a : α} {entries : List (String × α)}
    (h : entries.Pairwise (fun p q => p.1 < q.1)) :
    (insertEntry x a entries).Pairwise (fun p q => p.1 < q.1) := by
  induction entries with
  | nil => simp [insertEntry]
  | cons q rest ih =>
    obtain ⟨y, b⟩ := q
    obtain ⟨hy, hrest⟩ := List.pairwise_cons.mp h
    unfold insertEntry
    split
    · next hxy =>
      refine List.pairwise_cons.mpr ⟨?_, h⟩
      intro p hp
      rcases List.mem_cons.mp hp with rfl | hp
      · exact hxy
      · exact String.lt_trans hxy (hy p hp)
    · next hxy =>
      split
      · exact List.pairwise_cons.mpr ⟨hy, hrest⟩
      · next hne =>
        refine List.pairwise_cons.mpr ⟨?_, ih hrest⟩
        intro p hp
        rcases fst_mem_insertEntry hp with hpx | ⟨q, hq, hqp⟩
        · show y < p.1
          rw [hpx]
          exact Classical.byContradiction fun hyz => hne (eq_of_not_lt hxy hyz)
        · show y < p.1
          rw [← hqp]
          exact hy q hq

/-- A finite map from names, listed in increasing order of the names. -/
structure NameMap (α : Type) where
  toList : List (String × α)
  sorted : toList.Pairwise (fun p q => p.1 < q.1)

namespace NameMap

variable {α : Type}

instance : EmptyCollection (NameMap α) := ⟨⟨[], List.Pairwise.nil⟩⟩

instance : Inhabited (NameMap α) := ⟨∅⟩

/-- The names of the map in increasing order. -/
def keys (m : NameMap α) : List String :=
  m.toList.map Prod.fst

/-- The value under a name. -/
def get? (m : NameMap α) (x : String) : Option α :=
  m.toList.lookup x

/-- Whether there is a value under a name. -/
def contains (m : NameMap α) (x : String) : Bool :=
  (m.get? x).isSome

/-- The map with `a` as the value of `x`. -/
def insert (m : NameMap α) (x : String) (a : α) : NameMap α :=
  { toList := insertEntry x a m.toList, sorted := pairwise_insertEntry m.sorted }

/-- Replaces every value, given its name. -/
def mapValues {β : Type} (f : String → α → β) (m : NameMap α) : NameMap β where
  toList := m.toList.map fun p => (p.1, f p.1 p.2)
  sorted := List.pairwise_map.mpr m.sorted

@[simp] theorem get?_empty (x : String) : (∅ : NameMap α).get? x = none := rfl

theorem lookup_cons_ite (x y : String) (a : α) (entries : List (String × α)) :
    ((x, a) :: entries).lookup y = if y = x then some a else entries.lookup y := by
  by_cases h : y = x
  · simp [h]
  · have hb : (y == x) = false := beq_eq_false_iff_ne.mpr h
    simp only [List.lookup_cons, hb, if_neg h]

theorem lookup_insertEntry (x y : String) (a : α) (entries : List (String × α)) :
    (insertEntry x a entries).lookup y = if y = x then some a else entries.lookup y := by
  induction entries with
  | nil => simp only [insertEntry, lookup_cons_ite]
  | cons q rest ih =>
    obtain ⟨z, b⟩ := q
    unfold insertEntry
    split
    · exact lookup_cons_ite x y a _
    · split
      · next hxz =>
        subst hxz
        simp only [lookup_cons_ite]
        split <;> rfl
      · next hxz =>
        simp only [lookup_cons_ite, ih]
        by_cases hz : y = z
        · subst hz
          simp [Ne.symm hxz]
        · simp [hz]

@[simp] theorem get?_insert (m : NameMap α) (x y : String) (a : α) :
    (m.insert x a).get? y = if y = x then some a else m.get? y :=
  lookup_insertEntry x y a m.toList

theorem lookup_eq_some_of_mem {x : String} {a : α} {entries : List (String × α)}
    (hs : entries.Pairwise (fun p q => p.1 < q.1)) (h : (x, a) ∈ entries) :
    entries.lookup x = some a := by
  induction entries with
  | nil => cases h
  | cons q rest ih =>
    obtain ⟨y, b⟩ := q
    obtain ⟨hy, hrest⟩ := List.pairwise_cons.mp hs
    rw [lookup_cons_ite]
    rcases List.mem_cons.mp h with heq | hmem
    · cases heq
      exact if_pos rfl
    · rw [if_neg (ne_of_gt_name (hy (x, a) hmem)), ih hrest hmem]

theorem mem_of_lookup_eq_some {x : String} {a : α} {entries : List (String × α)}
    (h : entries.lookup x = some a) : (x, a) ∈ entries := by
  induction entries with
  | nil => cases h
  | cons q rest ih =>
    obtain ⟨y, b⟩ := q
    rw [lookup_cons_ite] at h
    split at h
    · next hxy =>
      cases h
      subst hxy
      exact List.mem_cons_self
    · exact List.mem_cons_of_mem _ (ih h)

theorem lookup_eq_none_of_lt {y : String} {entries : List (String × α)}
    (h : ∀ p ∈ entries, y < p.1) : entries.lookup y = none := by
  cases hl : entries.lookup y with
  | none => rfl
  | some a => exact absurd (h (y, a) (mem_of_lookup_eq_some hl)) (String.lt_irrefl y)

/-- The listing of a map holds exactly its values. -/
theorem mem_toList {m : NameMap α} {x : String} {a : α} :
    (x, a) ∈ m.toList ↔ m.get? x = some a :=
  ⟨lookup_eq_some_of_mem m.sorted, mem_of_lookup_eq_some⟩

theorem mem_keys {m : NameMap α} {x : String} : x ∈ m.keys ↔ m.get? x ≠ none := by
  rw [keys, List.mem_map, Option.ne_none_iff_exists']
  constructor
  · rintro ⟨⟨y, a⟩, hmem, rfl⟩
    exact ⟨a, mem_toList.mp hmem⟩
  · rintro ⟨a, ha⟩
    exact ⟨(x, a), mem_toList.mpr ha, rfl⟩

theorem sorted_keys (m : NameMap α) : m.keys.Pairwise (· < ·) :=
  List.pairwise_map.mpr m.sorted

@[simp] theorem get?_mapValues {β : Type} (f : String → α → β) (m : NameMap α) (x : String) :
    (m.mapValues f).get? x = (m.get? x).map (f x) := by
  obtain ⟨entries, hs⟩ := m
  show (entries.map fun p => (p.1, f p.1 p.2)).lookup x = (entries.lookup x).map (f x)
  clear hs
  induction entries with
  | nil => rfl
  | cons q rest ih =>
    obtain ⟨y, b⟩ := q
    rw [List.map_cons, lookup_cons_ite, lookup_cons_ite, ih]
    split
    · next hxy => rw [hxy, Option.map_some]
    · rfl

end NameMap

end WhileSmt
