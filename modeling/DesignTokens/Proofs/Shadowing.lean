import DesignTokens.Proofs.Naming
import Mathlib.Data.List.Nodup

/-! What storing a value replaces. In a coherent set the table of names and the row of former
groups find exactly the variables whose paths clash with the new one, so a store keeps the others,
and it leaves a coherent set. -/
namespace DesignTokens.VariableSet

/-- What every operation keeps of a set: a variable stands under the name of its own path, paths
are not nested, and all groups on the way to a variable are known. -/
structure Coherent (s : VariableSet) : Prop where
  names_nodup : s.names.Nodup
  name_eq : ∀ v ∈ s.toList, v.name = s.nameAt v.path
  path_ne_nil : ∀ v ∈ s.toList, v.path ≠ []
  mode_eq : ∀ v ∈ s.toList, v.mode = s.mode
  not_inside : ∀ v ∈ s.toList, ∀ w ∈ s.toList, ¬ Inside v.path w.path
  groups_mem : ∀ v ∈ s.toList, ∀ g, g ≠ [] → Inside v.path g → g ∈ s.groups

theorem empty_coherent (mode typePrefix : String) (strict : Bool) :
    (empty mode typePrefix strict).Coherent := by
  constructor <;> simp [empty, names]

theorem mem_of_get? {s : VariableSet} {name : String} {v : Variable}
    (h : s.get? name = some v) : v ∈ s.toList ∧ v.name = name :=
  ⟨List.mem_of_find?_eq_some h, by simpa using List.find?_some h⟩

namespace Coherent

variable {s : VariableSet} {v w : Variable} {path : List String}

theorem eq_of_name_eq (h : s.Coherent) (hv : v ∈ s.toList) (hw : w ∈ s.toList)
    (he : v.name = w.name) : v = w :=
  List.inj_on_of_nodup_map h.names_nodup hv hw he

theorem get?_of_mem (h : s.Coherent) (hv : v ∈ s.toList) : s.get? v.name = some v := by
  cases hg : s.get? v.name with
  | none => simpa using List.find?_eq_none.mp hg v hv
  | some w =>
    obtain ⟨hw, he⟩ := mem_of_get? hg
    rw [h.eq_of_name_eq hw hv he]

theorem get?_nameAt (h : s.Coherent) (hv : v ∈ s.toList) : s.get? (s.nameAt v.path) = some v := by
  rw [← h.name_eq v hv]
  exact h.get?_of_mem hv

/-- The variables on the way to a path are found under the names of its starts. -/
theorem mem_namesAbove (h : s.Coherent) {name : String} :
    name ∈ s.namesAbove path ↔ ∃ v ∈ s.toList, Inside path v.path ∧ v.name = name := by
  simp only [namesAbove, List.mem_filterMap, mem_properPrefixes]
  constructor
  · intro h
    obtain ⟨start, ⟨-, hstart⟩, hf⟩ := h
    cases hg : s.get? (s.nameAt start) with
    | none => simp [hg] at hf
    | some v =>
      obtain ⟨rfl, rfl⟩ : v.path = start ∧ v.name = name := by simpa [hg] using hf
      exact ⟨v, (mem_of_get? hg).1, hstart, rfl⟩
  · intro h
    obtain ⟨v, hv, hi, rfl⟩ := h
    exact ⟨v.path, ⟨h.path_ne_nil v hv, hi⟩, by simp [h.get?_nameAt hv]⟩

/-- The scan is left out only if it would find nothing. -/
theorem scan_eq_nil (h : s.Coherent) (hp : path ≠ []) (hg : path ∉ s.groups) :
    s.toList.filter (fun v => path.length < v.path.length && path.isPrefixOf v.path) = [] := by
  refine List.filter_eq_nil_iff.mpr fun v hv hi => hg (h.groups_mem v hv path hp ?_)
  exact inside_iff_length.mpr (by simpa using hi)

theorem mem_namesInside (h : s.Coherent) (hp : path ≠ []) {name : String} :
    name ∈ s.namesInside path ↔ ∃ v ∈ s.toList, Inside v.path path ∧ v.name = name := by
  have hscan : name ∈ (s.toList.filter fun v =>
        path.length < v.path.length && path.isPrefixOf v.path).map (·.name) ↔
      ∃ v ∈ s.toList, Inside v.path path ∧ v.name = name := by
    simp [inside_iff_length, and_assoc]
  rw [← hscan, namesInside]
  by_cases hg : path ∈ s.groups
  · simp [hg]
  · simp [hg, h.scan_eq_nil hp hg]

/-- The names that a store drops are those of the variables whose paths clash with its own. -/
theorem mem_shadowedBy (h : s.Coherent) (hp : path ≠ []) {name : String} :
    name ∈ s.shadowedBy path ↔ ∃ v ∈ s.toList, Clash v.path path ∧ v.name = name := by
  rw [shadowedBy, List.mem_append, h.mem_namesAbove, h.mem_namesInside hp]
  constructor
  · intro h
    rcases h with ⟨v, hv, hi, rfl⟩ | ⟨v, hv, hi, rfl⟩
    · exact ⟨v, hv, Or.inr hi, rfl⟩
    · exact ⟨v, hv, Or.inl hi, rfl⟩
  · intro h
    obtain ⟨v, hv, hi | hi, rfl⟩ := h
    · exact Or.inr ⟨v, hv, hi, rfl⟩
    · exact Or.inl ⟨v, hv, hi, rfl⟩

theorem name_mem_shadowedBy (h : s.Coherent) (hp : path ≠ []) (hv : v ∈ s.toList) :
    v.name ∈ s.shadowedBy path ↔ Clash v.path path := by
  rw [h.mem_shadowedBy hp]
  constructor
  · intro h
    obtain ⟨w, hw, hc, he⟩ := h
    rwa [h.eq_of_name_eq hw hv he] at hc
  · exact fun hc => ⟨v, hv, hc, rfl⟩

theorem namesAbove_nodup (h : s.Coherent) : (s.namesAbove path).Nodup := by
  have hstarts : (properPrefixes path).Nodup := by
    refine List.nodup_range.map_on fun i hi j hj he => ?_
    have := congrArg List.length he
    simp only [List.mem_range, List.length_take] at hi hj this
    omega
  refine hstarts.filterMap fun p q name hn hn' => ?_
  cases hg : s.get? (s.nameAt p) with
  | none => simp [hg] at hn
  | some v =>
    cases hg' : s.get? (s.nameAt q) with
    | none => simp [hg'] at hn'
    | some w =>
      obtain ⟨rfl, rfl⟩ : v.path = p ∧ v.name = name := by simpa [hg] using hn
      obtain ⟨rfl, he⟩ : w.path = q ∧ w.name = v.name := by simpa [hg'] using hn'
      rw [h.eq_of_name_eq (mem_of_get? hg').1 (mem_of_get? hg).1 he]

theorem namesInside_nodup (h : s.Coherent) : (s.namesInside path).Nodup := by
  rw [namesInside]
  split
  · exact h.names_nodup.sublist (List.filter_sublist.map _)
  · exact List.nodup_nil

/-- No name is dropped twice. -/
theorem shadowedBy_nodup (h : s.Coherent) (hp : path ≠ []) : (s.shadowedBy path).Nodup := by
  refine h.namesAbove_nodup.append h.namesInside_nodup fun name ha hi => ?_
  obtain ⟨v, hv, hav, rfl⟩ := h.mem_namesAbove.mp ha
  obtain ⟨w, hw, hiw, he⟩ := (h.mem_namesInside hp).mp hi
  rw [h.eq_of_name_eq hw hv he] at hiw
  exact inside_irrefl _ (inside_trans hav hiw)

end Coherent

/-- Deletes variables by their names, one after the other. A name that is not there fails. -/
def deleteAll? : List String → List Variable → Option (List Variable)
  | [], vs => some vs
  | name :: rest, vs =>
    if name ∈ vs.map (·.name) then deleteAll? rest (vs.filter (·.name ≠ name)) else none

theorem deleteAll?_eq_some {doomed : List String} {vs : List Variable} (hn : doomed.Nodup)
    (hm : ∀ name ∈ doomed, name ∈ vs.map (·.name)) :
    deleteAll? doomed vs = some (vs.filter fun v => !doomed.contains v.name) := by
  induction doomed generalizing vs with
  | nil => simp [deleteAll?]
  | cons name rest ih =>
    obtain ⟨hnotin, hrest⟩ := List.nodup_cons.mp hn
    have hm' : ∀ n ∈ rest, n ∈ (vs.filter (·.name ≠ name)).map (·.name) := by
      intro n hn'
      obtain ⟨v, hv, rfl⟩ := List.mem_map.mp (hm n (List.mem_cons_of_mem _ hn'))
      refine List.mem_map.mpr ⟨v, List.mem_filter.mpr ⟨hv, ?_⟩, rfl⟩
      simpa using fun he : v.name = name => hnotin (he ▸ hn')
    rw [deleteAll?, if_pos (hm name List.mem_cons_self), ih hrest hm', List.filter_filter]
    congr 1
    refine List.filter_congr fun v _ => ?_
    simp only [List.contains_cons, Bool.not_or]
    grind

theorem map_name_putVariable (v : Variable) (vs : List Variable) :
    (putVariable v vs).map (·.name) =
      if v.name ∈ vs.map (·.name) then vs.map (·.name) else vs.map (·.name) ++ [v.name] := by
  induction vs with
  | nil => simp [putVariable]
  | cons w rest ih =>
    rw [putVariable]
    split <;> grind

theorem mem_putVariable {v w : Variable} {vs : List Variable} (hn : (vs.map (·.name)).Nodup) :
    w ∈ putVariable v vs ↔ w = v ∨ (w ∈ vs ∧ w.name ≠ v.name) := by
  induction vs with
  | nil => simp [putVariable]
  | cons u rest ih =>
    obtain ⟨hu, hrest⟩ := List.nodup_cons.mp hn
    have hother : ∀ w ∈ rest, w.name ≠ u.name := fun w hw he =>
      hu (List.mem_map.mpr ⟨w, hw, he⟩)
    rw [putVariable]
    split
    · grind
    · grind

/-- The variables that a store at a path keeps. -/
def keptAt (s : VariableSet) (path : List String) : List Variable :=
  s.toList.filter fun v => ¬ Clash v.path path

theorem mem_keptAt {s : VariableSet} {path : List String} {v : Variable} :
    v ∈ s.keptAt path ↔ v ∈ s.toList ∧ ¬ Clash v.path path := by
  simp [keptAt]

namespace Coherent

variable {s : VariableSet} {path : List String} {value : Value} {v : Variable}

theorem keptAt_nodup (h : s.Coherent) : ((s.keptAt path).map (·.name)).Nodup :=
  h.names_nodup.sublist (List.filter_sublist.map _)

theorem filter_shadowedBy (h : s.Coherent) (hp : path ≠ []) :
    (s.toList.filter fun v => !(s.shadowedBy path).contains v.name) = s.keptAt path :=
  List.filter_congr fun v hv => by simp [h.name_mem_shadowedBy hp hv]

/-- Dropping the shadowed names one by one succeeds and leaves the variables whose paths do not
clash with the new one. -/
theorem deleteAll?_shadowedBy (h : s.Coherent) (hp : path ≠ []) :
    deleteAll? (s.shadowedBy path) s.toList = some (s.keptAt path) := by
  rw [deleteAll?_eq_some (h.shadowedBy_nodup hp), h.filter_shadowedBy hp]
  · intro name hname
    obtain ⟨v, hv, -, rfl⟩ := (h.mem_shadowedBy hp).mp hname
    exact List.mem_map.mpr ⟨v, hv, rfl⟩

theorem store_toList (h : s.Coherent) (hp : path ≠ []) :
    (s.store path value).toList =
      putVariable ⟨s.nameAt path, value, path, s.mode⟩ (s.keptAt path) := by
  simp only [store, h.filter_shadowedBy hp]

theorem mem_store (h : s.Coherent) (hp : path ≠ []) :
    v ∈ (s.store path value).toList ↔ v = ⟨s.nameAt path, value, path, s.mode⟩ ∨
      (v ∈ s.toList ∧ ¬ Clash v.path path ∧ v.name ≠ s.nameAt path) := by
  rw [h.store_toList hp, mem_putVariable h.keptAt_nodup, mem_keptAt, and_assoc]

/-- A variable that keeps its name under a store does not clash with the new path. -/
theorem nameAt_mem_kept (h : s.Coherent) (hp : path ≠ []) :
    s.nameAt path ∈ (s.keptAt path).map (·.name) ↔ s.nameAt path ∈ s.names := by
  simp only [names, List.mem_map, mem_keptAt]
  constructor
  · intro h
    obtain ⟨v, ⟨hv, -⟩, he⟩ := h
    exact ⟨v, hv, he⟩
  · intro h
    obtain ⟨v, hv, he⟩ := h
    refine ⟨v, ⟨hv, ?_⟩, he⟩
    rw [h.name_eq v hv] at he
    exact fun hc => fullName_ne_of_clash s.typePrefix (h.path_ne_nil v hv) hp hc he

theorem store_names (h : s.Coherent) (hp : path ≠ []) :
    (s.store path value).names =
      let kept := (s.keptAt path).map (·.name)
      if s.nameAt path ∈ s.names then kept else kept ++ [s.nameAt path] := by
  rw [names, h.store_toList hp, map_name_putVariable]
  simp only [h.nameAt_mem_kept hp]

end Coherent

theorem mem_store_groups {s : VariableSet} {path g : List String} {value : Value} :
    g ∈ (s.store path value).groups ↔ g ∈ s.groups ∨ g ∈ properPrefixes path := by
  simp only [store, List.mem_append, List.mem_filter]
  grind

/-- A store keeps a set coherent. -/
theorem Coherent.store {s : VariableSet} (h : s.Coherent) {path : List String} (hp : path ≠ [])
    (value : Value) : (s.store path value).Coherent where
  names_nodup := by
    rw [names, h.store_toList hp, map_name_putVariable]
    split
    · exact h.keptAt_nodup
    · next hnot =>
      exact h.keptAt_nodup.append (List.nodup_singleton _) (by simpa using hnot)
  name_eq v hv := by
    rcases (h.mem_store hp).mp hv with rfl | ⟨hv, -⟩
    · rfl
    · exact h.name_eq v hv
  path_ne_nil v hv := by
    rcases (h.mem_store hp).mp hv with rfl | ⟨hv, -⟩
    · exact hp
    · exact h.path_ne_nil v hv
  mode_eq v hv := by
    rcases (h.mem_store hp).mp hv with rfl | ⟨hv, -⟩
    · rfl
    · exact h.mode_eq v hv
  not_inside v hv w hw hi := by
    rcases (h.mem_store hp).mp hv with rfl | ⟨hv, hcv, -⟩ <;>
      rcases (h.mem_store hp).mp hw with rfl | ⟨hw, hcw, -⟩
    · exact inside_irrefl _ hi
    · exact hcw (Or.inr hi)
    · exact hcv (Or.inl hi)
    · exact h.not_inside v hv w hw hi
  groups_mem v hv g hg hi := by
    rw [mem_store_groups]
    rcases (h.mem_store hp).mp hv with rfl | ⟨hv, -⟩
    · exact Or.inr (mem_properPrefixes.mpr ⟨hg, hi⟩)
    · exact Or.inl (h.groups_mem v hv g hg hi)

end DesignTokens.VariableSet
