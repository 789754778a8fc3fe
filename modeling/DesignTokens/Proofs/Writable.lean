import DesignTokens.Output.Dtcg
import DesignTokens.Output.Script
import DesignTokens.Proofs.JsonData

/-! What can be written as JSON: scalars, rows of what can be written, and mappings of it under
scalar keys. These are exactly the values that have a text, and a tree in the token format can be
written exactly if the tree itself can. -/
namespace DesignTokens.Json

/-- A value without parts that can be written. Only these have a text as keys. -/
def IsScalar : Value → Prop
  | .null => True
  | .bool _ => True
  | .int i => Number.isWritable i
  | .float _ => True
  | .text _ => True
  | _ => False

/-- A value that has a text. Dates, references, computed values and functions have none, and neither
have integers of too many digits. -/
inductive Writable : Value → Prop where
  | scalar {v : Value} (h : IsScalar v) : Writable v
  | list {xs : List Value} (h : ∀ v ∈ xs, Writable v) : Writable (.list xs)
  | tuple {xs : List Value} (h : ∀ v ∈ xs, Writable v) : Writable (.tuple xs)
  | map {es : List (Value × Value)} (hkeys : ∀ e ∈ es, IsScalar e.1)
      (h : ∀ e ∈ es, Writable e.2) : Writable (.map es)

theorem scalarText_eq_ok (refused : KindFault) {v : Value} :
    (∃ s, scalarText refused v = .ok s) ↔ IsScalar v := by
  cases v with
  | int i => by_cases h : Number.isWritable i <;> simp [scalarText, IsScalar, h]
  | _ => simp [scalarText, IsScalar]

theorem keyText_eq_ok {k : Value} : (∃ s, keyText k = .ok s) ↔ IsScalar k := by
  unfold keyText
  split
  · simp [IsScalar]
  · rw [← scalarText_eq_ok (.notADataKey k.kind)]
    cases scalarText (.notADataKey k.kind) k <;> simp [Except.map]

theorem textIn_tuple {layout : Layout} {xs : List Value} :
    (∃ s, textIn layout (.tuple xs) = .ok s) ↔ ∀ v ∈ xs, ∃ s, textIn layout.inner v = .ok s :=
  textIn_list

/-- Without parts a value has a text in every layout or in none. -/
theorem textIn_of_isScalar {v : Value} (h : IsScalar v) (layout : Layout) :
    ∃ s, textIn layout v = .ok s := by
  cases v with
  | list => cases h
  | tuple => cases h
  | map => cases h
  | _ => simpa only [textIn, scalarText_eq_ok] using h

theorem Writable.textIn {v : Value} (h : Writable v) (layout : Layout) :
    ∃ s, textIn layout v = .ok s := by
  induction h generalizing layout with
  | scalar h => exact textIn_of_isScalar h layout
  | list _ ih => exact textIn_list.mpr fun v hv => ih v hv layout.inner
  | tuple _ ih => exact textIn_tuple.mpr fun v hv => ih v hv layout.inner
  | map hkeys _ ih =>
    exact textIn_map.mpr fun e he => ⟨keyText_eq_ok.mpr (hkeys e he), ih e he layout.inner⟩

mutual

theorem writable_of_textIn {layout : Layout} (v : Value)
    (h : ∃ s, textIn layout v = .ok s) : Writable v := by
  cases v with
  | list xs => exact .list fun v hv => writable_items xs (textIn_list.mp h) v hv
  | tuple xs => exact .tuple fun v hv => writable_items xs (textIn_tuple.mp h) v hv
  | map es =>
    have hes := textIn_map.mp h
    exact .map (fun e he => keyText_eq_ok.mp (hes e he).1)
      fun e he => writable_entries es (fun e he => (hes e he).2) e he
  | _ => exact .scalar (by simpa only [textIn, scalarText_eq_ok] using h)

theorem writable_items {layout : Layout} (xs : List Value)
    (h : ∀ v ∈ xs, ∃ s, textIn layout v = .ok s) : ∀ v ∈ xs, Writable v := by
  intro v hv
  match xs with
  | x :: rest =>
    rcases List.mem_cons.mp hv with he | hv
    · exact he ▸ writable_of_textIn x (h x List.mem_cons_self)
    · exact writable_items rest (fun w hw => h w (List.mem_cons_of_mem _ hw)) v hv

theorem writable_entries {layout : Layout} (es : List (Value × Value))
    (h : ∀ e ∈ es, ∃ s, textIn layout e.2 = .ok s) : ∀ e ∈ es, Writable e.2 := by
  intro e he
  match es with
  | (k, v) :: rest =>
    rcases List.mem_cons.mp he with he | he
    · exact he ▸ writable_of_textIn v (h (k, v) List.mem_cons_self)
    · exact writable_entries rest (fun f hf => h f (List.mem_cons_of_mem _ hf)) e he

end

/-- A value has a text in a layout exactly if it can be written, whatever the layout. -/
theorem textIn_eq_ok {layout : Layout} {v : Value} :
    (∃ s, Json.textIn layout v = .ok s) ↔ Writable v :=
  ⟨writable_of_textIn v, fun h => h.textIn layout⟩

theorem IsData.writable {v : Value} (h : IsData v) : Writable v := textIn_eq_ok.mp (h.textIn .line)

theorem Writable.of_map {es : List (Value × Value)} (h : Writable (.map es)) :
    ∀ e ∈ es, IsScalar e.1 ∧ Writable e.2 := by
  have hes := textIn_map.mp (h.textIn .line)
  exact fun e he => ⟨keyText_eq_ok.mp (hes e he).1, textIn_eq_ok.mp (hes e he).2⟩

end DesignTokens.Json

namespace DesignTokens

theorem exists_jsonText {v : Value} : (∃ s, jsonText v = .ok s) ↔ Json.Writable v :=
  Json.textIn_eq_ok

theorem dtcgLeaf_eq (v : Value) : dtcgLeaf v = .map ((.text "$value", v) ::
    (dtcgType? v).toList.map fun name => (.text "$type", .text name)) := by
  unfold dtcgLeaf
  cases dtcgType? v <;> rfl

theorem writable_dtcgLeaf {v : Value} : Json.Writable (dtcgLeaf v) ↔ Json.Writable v := by
  rw [dtcgLeaf_eq]
  constructor
  · intro h
    exact (h.of_map (.text "$value", v) List.mem_cons_self).2
  · intro h
    have htype : ∀ e ∈ (dtcgType? v).toList.map fun name => (Value.text "$type", Value.text name),
        Json.IsScalar e.1 ∧ Json.Writable e.2 := by
      intro e he
      obtain ⟨name, -, rfl⟩ := List.mem_map.mp he
      exact ⟨trivial, .scalar trivial⟩
    refine .map (fun e he => ?_) fun e he => ?_ <;> rcases List.mem_cons.mp he with rfl | he
    · trivial
    · exact (htype e he).1
    · exact h
    · exact (htype e he).2

mutual

/-- A tree in the token format can be written exactly if the tree itself can. -/
theorem writable_toDtcg (tree : Value) : Json.Writable (toDtcg tree) ↔ Json.Writable tree := by
  cases tree with
  | map es =>
    have hes := writable_entriesToDtcg es
    constructor
    · intro h
      have h := hes.mp h.of_map
      exact .map (fun e he => (h e he).1) fun e he => (h e he).2
    · intro h
      have h := hes.mpr h.of_map
      exact .map (fun e he => (h e he).1) fun e he => (h e he).2
  | _ => exact writable_dtcgLeaf

theorem writable_entriesToDtcg (es : List (Value × Value)) :
    (∀ e ∈ entriesToDtcg es, Json.IsScalar e.1 ∧ Json.Writable e.2) ↔
      ∀ e ∈ es, Json.IsScalar e.1 ∧ Json.Writable e.2 := by
  match es with
  | [] => simp [entriesToDtcg]
  | (k, v) :: rest =>
    rw [entriesToDtcg, List.forall_mem_cons, List.forall_mem_cons, writable_toDtcg v,
      writable_entriesToDtcg rest]

end

end DesignTokens
